import TextDomain.Diagnostic.Basic

/-!
# Excerpts from a content

Diagnostics quote lines. `lineOf` finds a line by going from line feed to line feed, without an
index of where the lines start. `Span.width` says how much of its first line a span covers,
`carets` are put under that much of it, and `Fix.preview?` shows the line after a fix. Columns and
widths are 32-bit words whose sums and differences wrap; carets are kept on the line all the same.
-/

namespace TextDomain

/-- What follows the first line feed. -/
def afterLineFeed? : Bytes → Option Bytes
  | [] => none
  | c :: s => if c = Byte.lf then some s else afterLineFeed? s

/-- What follows the first `n` line feeds. -/
def afterLineFeeds? : Nat → Bytes → Option Bytes
  | 0, s => some s
  | n + 1, s =>
    match afterLineFeed? s with
    | none => none
    | some rest => afterLineFeeds? n rest

/-- A text without the carriage return it ends with, if it does. -/
def dropCarriageReturn (s : Bytes) : Bytes :=
  if s.getLast? = some Byte.cr then s.dropLast else s

/-- A line of a content by its number, counted from one; empty if there is no such line. -/
def lineOf (content : Bytes) (number : UInt32) : Bytes :=
  if number = 0 then [] else
  match afterLineFeeds? (number.toNat - 1) content with
  | none => []
  | some rest => dropCarriageReturn (rest.takeWhile (· != Byte.lf))

/-- The bytes before a span on its first line. -/
def Span.indent (s : Span) : UInt32 :=
  if s.start.column = 0 then 0 else s.start.column - 1

/-- How many columns a span covers on its first line. A span that goes on to a later line covers the
rest of `line`; one whose end lies before its start has the length it was given, or one column. -/
def Span.width (s : Span) (line : Bytes) : UInt32 :=
  if s.stop.line > s.start.line then
    let length := UInt32.ofNat line.length
    if length > s.indent then length - s.indent else 1
  else if s.stop.column ≥ s.start.column then s.stop.column - s.start.column + 1
  else if s.start.length > 0 then s.start.length
  else 1

/-- How many carets stand under a span: what it covers of `line`, and at least one. -/
def Span.caretCount (s : Span) (line : Bytes) : UInt32 :=
  let stop := min (s.indent + s.width line) (UInt32.ofNat line.length)
  max stop (s.indent + 1) - s.indent

/-- The space before column `n` of a line. Tabs are kept, so that what follows lines up. -/
def gutterSpace (line : Bytes) (n : Nat) : Bytes :=
  (line.take n).map (fun c => if c = Byte.tab then Byte.tab else Byte.space) ++
    List.replicate (n - line.length) Byte.space

/-- The carets under a span. -/
def carets (s : Span) (line : Bytes) : Bytes :=
  List.replicate (s.caretCount line).toNat 0x5e

/-- A line cut in three by a fix: before it, its replacement, and after it. There is none for a fix
that spans lines, for an empty line, or for a column past the end of the line. -/
def Fix.preview? (f : Fix) (line : Bytes) : Option (Bytes × Bytes × Bytes) :=
  let indent := f.span.indent.toNat
  if f.span.stop.line > f.span.start.line ∨ line = [] ∨ indent > line.length then none
  else some (line.take indent, f.replacement, line.drop (indent + (f.span.width line).toNat))

end TextDomain
