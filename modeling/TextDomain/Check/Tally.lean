import TextDomain.Decimal
import TextDomain.Report

/-!
# Tallies

A `Tally` counts what a check finds, `Tally.summary` puts it in words, and `Exit` is what a run ends
with. The counts are taken to stay below the bounds of a machine word.
-/

namespace TextDomain

/-- The numbers that a check ends with. -/
structure Tally where
  files : Int := 0
  errors : Int := 0
  fixable : Int := 0
  fixed : Int := 0
  gaveUp : Int := 0
  deriving DecidableEq, Inhabited, Repr

namespace Tally

/-- Takes in what was found in a file. -/
def add (t : Tally) (report : Report) (fix : Bool) : Tally where
  files := t.files + 1
  errors := t.errors + report.issues.length
  fixable := t.fixable + (report.issues.filter Issue.fixable).length
  fixed := if fix ∧ report.changed then t.fixed + 1 else t.fixed
  gaveUp := if fix ∧ report.gaveUp then t.gaveUp + 1 else t.gaveUp

/-- The last line of a report. -/
def summary (t : Tally) (fix : Bool) : Bytes :=
  ascii "Checked " ++ signed t.files ++ ascii " file(s)" ++
    if fix then
      ascii ", fixed " ++ signed t.fixed ++ ascii " file(s)" ++
        if t.gaveUp > 0 then ascii ", " ++ signed t.gaveUp ++ ascii " could not be fixed"
        else []
    else if t.errors = 0 then ascii ", no issues found"
    else
      ascii ": " ++ signed t.errors ++ ascii " error(s), " ++ signed t.fixable ++ ascii " fixable"

end Tally

/-- How a run ends. -/
inductive Exit where
  /-- Nothing found, or everything fixed. -/
  | clean
  /-- Something found, or a fix failed. -/
  | issues
  /-- The arguments make no sense, or a file could not be dealt with. -/
  | trouble
  deriving DecidableEq, Inhabited, Repr

/-- The number a process ends with. -/
def Exit.code : Exit → UInt32
  | clean => 0
  | issues => 1
  | trouble => 2

end TextDomain
