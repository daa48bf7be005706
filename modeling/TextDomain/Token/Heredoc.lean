import TextDomain.Token.Kind

/-!
# Heredocs

A heredoc starts with a header (`header?`): `<<<`, blanks, a label, possibly in quotes, and a line
end. It ends right after the label on the first later line that begins with it, blanks aside, where
no longer name starts with it (`closing?`). Text without a full header is no heredoc.
-/

namespace TextDomain

namespace Heredoc

/-- The header of a heredoc: its bytes before the line feed, and the label. -/
structure Header where
  text : Bytes
  label : Bytes
  deriving DecidableEq, Repr

/-- The quote a label may be written in. -/
def labelQuote (s : Bytes) : Bytes :=
  match s with
  | [] => []
  | c :: _ => if c = Byte.singleQuote ∨ c = Byte.doubleQuote then [c] else []

/-- The label at the start of a text, possibly in quotes, as written and as a name. -/
def label? (s : Bytes) : Option (Bytes × Bytes) :=
  let quote := labelQuote s
  let inner := s.drop quote.length
  let name := inner.takeWhile Byte.isNameByte
  if Bytes.startsIn Byte.isNameStart inner ∧ quote.isPrefixOf (inner.drop name.length) then
    some (quote ++ name ++ quote, name)
  else none

/-- A carriage return at the start of a text. -/
def carriageReturn (s : Bytes) : Bytes :=
  if s.head? = some Byte.cr then [Byte.cr] else []

/-- The header at the start of a text, up to but not including its line feed. -/
def header? (s : Bytes) : Option Header := do
  let rest ← Bytes.after? (ascii "<<<") s
  let blanks := rest.takeWhile Byte.isBlank
  let rest := rest.drop blanks.length
  let (written, label) ← label? rest
  let rest := rest.drop written.length
  let cr := carriageReturn rest
  if Bytes.startsWith Byte.lf (rest.drop cr.length) then
    some ⟨ascii "<<<" ++ blanks ++ written ++ cr, label⟩
  else none

/-- The closing marker at the start of a line: blanks and the label, not as the start of a longer
name. -/
def marker? (label line : Bytes) : Option Bytes :=
  let blanks := line.takeWhile Byte.isBlank
  match Bytes.after? label (line.drop blanks.length) with
  | some rest => if Bytes.startsIn Byte.isNameByte rest then none else some (blanks ++ label)
  | none => none

/-- The text up to and including the first closing marker at the start of one of its lines. The
first line counts only if `fresh`. -/
def closing? (label : Bytes) : (fresh : Bool) → Bytes → Option Bytes
  | fresh, [] => if fresh then marker? label [] else none
  | fresh, c :: s =>
    match if fresh then marker? label (c :: s) else none with
    | some marker => some marker
    | none => (closing? label (c == Byte.lf) s).map (c :: ·)

/-- The heredoc at the start of a text. One without an end is an error that takes all of the text.
-/
def heredoc? (s : Bytes) : Option Lexeme :=
  (header? s).map fun header =>
    match closing? header.label false (s.drop header.text.length) with
    | some body => ⟨.heredoc, header.text ++ body⟩
    | none => ⟨.error, s⟩

end Heredoc

end TextDomain
