import TextDomain.Bytes

/-!
# Severity levels

A `Level` is a whole number; the seven named ones run from `Level.trace` to `Level.off`. Levels are
compared as numbers, so a level that has no name still has its place among the others.
-/

namespace TextDomain

/-- How severe a log event is. -/
structure Level where
  rank : Int
  deriving DecidableEq, Inhabited, Repr

namespace Level

instance : LE Level := ⟨fun a b => a.rank ≤ b.rank⟩

instance : LT Level := ⟨fun a b => a.rank < b.rank⟩

instance (a b : Level) : Decidable (a ≤ b) := inferInstanceAs (Decidable (a.rank ≤ b.rank))

instance (a b : Level) : Decidable (a < b) := inferInstanceAs (Decidable (a.rank < b.rank))

instance : Min Level := minOfLe

def trace : Level := ⟨0⟩
def debug : Level := ⟨1⟩
def info : Level := ⟨2⟩
def warn : Level := ⟨3⟩
def error : Level := ⟨4⟩
def fatal : Level := ⟨5⟩
/-- Above every event: a filter set to it lets nothing through. -/
def off : Level := ⟨6⟩

/-- The named levels. -/
def names : List (Level × String) :=
  [(trace, "TRACE"), (debug, "DEBUG"), (info, "INFO"), (warn, "WARN"), (error, "ERROR"),
    (fatal, "FATAL"), (off, "OFF")]

/-- The name records are written with. -/
def name (level : Level) : Bytes :=
  match names.lookup level with
  | some text => ascii text
  | none => ascii "???"

/-- The words for a level in options and filters. -/
def words : List (String × Level) :=
  [("trace", trace), ("TRACE", trace), ("debug", debug), ("DEBUG", debug), ("info", info),
    ("INFO", info), ("warn", warn), ("WARN", warn), ("warning", warn), ("error", error),
    ("ERROR", error), ("fatal", fatal), ("FATAL", fatal), ("off", off), ("OFF", off)]

/-- The level a word stands for. A word that stands for none is read as `info`. -/
def ofWord (word : Bytes) : Level :=
  ((words.find? fun entry => ascii entry.1 == word).map Prod.snd).getD info

end Level

end TextDomain
