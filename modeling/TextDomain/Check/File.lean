import TextDomain.Disk.Tree
import TextDomain.Report

/-!
# Checking one file on disk

`Renaming.lintOnDisk` checks a file of a tree, and writes it back if fixing changed it. The tree is
left as it is if the file cannot be read, cannot be opened for writing, or has nothing to change. A
file that there is no room for is left with a part of its text.
-/

namespace TextDomain

/-- Why a file could not be dealt with. -/
inductive FileError where
  | unreadable (path : Bytes)
  | unwritable (path : Bytes)
  /-- It was opened, but not all of it could be written. -/
  | unfinished (path : Bytes)
  deriving DecidableEq, Repr

def FileError.message : FileError → Bytes
  | unreadable path => ascii "Failed to open file: " ++ path
  | unwritable path => ascii "Cannot write file: " ++ path
  | unfinished path => ascii "Failed writing file: " ++ path

/-- What became of a file, the tree after it, and what there is to log. -/
structure FileOutcome where
  result : Except FileError Report
  tree : Tree
  events : List Event

/-- Checks a file, and writes it back if fixing changed it. -/
def Renaming.lintOnDisk (r : Renaming) (fix : Bool) (t : Tree) (path : Bytes) : FileOutcome :=
  match t.read? path with
  | none => ⟨.error (.unreadable path), t, []⟩
  | some content =>
    let (report, events) := r.lint fix path content
    if fix ∧ report.changed then
      match t.write path report.after with
      | .refused => ⟨.error (.unwritable path), t, events⟩
      | .cutShort t => ⟨.error (.unfinished path), t, events⟩
      | .whole t =>
        ⟨.ok report, t, events ++
          [.of .info "fix" (ascii "Fixed " ++ decimal report.fixCount ++ ascii " issue(s) in " ++
            path)]⟩
    else ⟨.ok report, t, events⟩

end TextDomain
