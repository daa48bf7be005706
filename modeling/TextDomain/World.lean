import TextDomain.Disk.Tree
import TextDomain.Terminal

/-!
# The outside world

A `World` is everything a run can see or change: the disk, what has been written to the output
streams, the terminal and the time.
-/

namespace TextDomain

/-- A stream that text is written to. -/
inductive Stream where
  /-- The standard error stream. -/
  | stderr
  /-- A stream kept in memory, by its number. -/
  | memory (index : Nat)
  deriving DecidableEq, Repr

structure World where
  tree : Tree
  terminal : Terminal
  /-- The environment variable that sets up the log, if set. -/
  logVariable : Option Bytes
  /-- The time in milliseconds since 1970. -/
  clock : Int
  /-- What has been written to the standard output. -/
  out : Bytes
  /-- What has been written to the standard error stream. -/
  err : Bytes
  /-- What has been written to each stream in memory. -/
  streams : List Bytes
  deriving Inhabited, Repr

namespace World

/-- Writes to the standard output. -/
def print (w : World) (text : Bytes) : World :=
  { w with out := w.out ++ text }

/-- Writes to a stream. -/
def write (w : World) (stream : Stream) (text : Bytes) : World :=
  match stream with
  | .stderr => { w with err := w.err ++ text }
  | .memory index => { w with streams := w.streams.modify index (· ++ text) }

end World

end TextDomain
