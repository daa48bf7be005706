import TextDomain.Bytes

/-!
# Source text and places in it

A `Source` is a named text. A line ends with a line feed, so `Source.lineStarts` lists 0 and every
offset after a line feed. `Source.location` turns an offset into a line and a column, both counted
from one, and `Source.line` gives a line without its terminator. Lines, columns, offsets and lengths
are 32-bit words, as reports hold them; `Source.location` is exact as long as they fit.
-/

namespace TextDomain

/-- A place in a text: line and column from one, offset from zero, and how many bytes are meant. -/
structure Location where
  line : UInt32
  column : UInt32
  offset : UInt32
  length : UInt32
  deriving DecidableEq, Inhabited, Repr

/-- A stretch of a file, from its first to its last byte. -/
structure Span where
  file : Bytes
  start : Location
  stop : Location
  deriving DecidableEq, Inhabited, Repr

/-- A text with the name it is reported under. -/
structure Source where
  name : Bytes
  content : Bytes
  deriving DecidableEq, Inhabited, Repr

/-! ## Lines -/

/-- The offsets right after each line feed of a text that starts at `offset`. -/
def lineStartsAfter (offset : Nat) : Bytes → List Nat
  | [] => []
  | c :: s =>
    if c = Byte.lf then (offset + 1) :: lineStartsAfter (offset + 1) s
    else lineStartsAfter (offset + 1) s

/-- The offset at which each line starts. -/
def lineStarts (s : Bytes) : List Nat :=
  0 :: lineStartsAfter 0 s

/-- The location of an offset, given where the lines start. The line is the last one that starts
at or before the offset. -/
def locate (starts : List Nat) (offset : Nat) : Location :=
  let reached := starts.takeWhile (· ≤ offset)
  { line := UInt32.ofNat reached.length
    column := UInt32.ofNat (offset - reached.getLastD 0) + 1
    offset := UInt32.ofNat offset
    length := 1 }

/-- A line without the line feed that ends it, nor a carriage return before that. -/
def chompLine (s : Bytes) : Bytes :=
  let s := if s.getLast? = some Byte.lf then s.dropLast else s
  if s.getLast? = some Byte.cr then s.dropLast else s

namespace Source

/-- The byte at an offset, NUL past the end. -/
def byteAt (s : Source) (offset : Nat) : UInt8 :=
  s.content.getD offset Byte.nul

/-- The bytes from `start` up to but not including `stop`, as far as there are any. -/
def slice (s : Source) (start stop : Nat) : Bytes :=
  (s.content.drop start).take (stop - start)

def lineStarts (s : Source) : List Nat :=
  TextDomain.lineStarts s.content

/-- The location of an offset, which may lie past the end. -/
def location (s : Source) (offset : Nat) : Location :=
  locate s.lineStarts offset

/-- The number of lines; a text that ends with a line feed has an empty last line. -/
def lineCount (s : Source) : UInt32 :=
  UInt32.ofNat s.lineStarts.length

/-- A line by its number, counted from one; empty if there is no such line. -/
def line (s : Source) (number : UInt32) : Bytes :=
  if number = 0 then [] else
  match s.lineStarts[number.toNat - 1]? with
  | none => []
  | some start => chompLine (s.slice start (s.lineStarts.getD number.toNat s.content.length))

end Source

end TextDomain
