import TextDomain.Token.Kind

/-!
# Quoted strings

A quoted string runs from its quote to the next quote of the same sort. A backslash takes the byte
after it with it, so an escaped quote ends nothing (`body?`). Escapes are kept as they are.
Backticks always interpolate; double quotes do so if `interpolates` finds a variable in them;
single quotes never do.
-/

namespace TextDomain

namespace Quoted

def isQuote (c : UInt8) : Bool :=
  c == Byte.singleQuote || c == Byte.doubleQuote || c == Byte.backtick

/-- What follows an opening `quote` up to and including the closing one, if there is one. -/
def body? (quote : UInt8) : Bytes → Option Bytes
  | [] => none
  | c :: s =>
    if c = Byte.backslash then
      match s with
      | [] => none
      | d :: s => (body? quote s).map fun body => c :: d :: body
    else if c = quote then some [c]
    else (body? quote s).map (c :: ·)

/-- An unescaped dollar sign before a name or a brace, or an unescaped brace before a dollar sign.
-/
def interpolates : Bytes → Bool
  | [] => false
  | [_] => false
  | c :: d :: s =>
    if c = Byte.backslash then interpolates s
    else
      (c == Byte.dollar && (Byte.isNameStart d || d == Byte.openBrace)) ||
        (c == Byte.openBrace && d == Byte.dollar) || interpolates (d :: s)

/-- The kind of a string with this quote and this body. -/
def kind (quote : UInt8) (body : Bytes) : Kind :=
  if quote = Byte.backtick ∨ (quote = Byte.doubleQuote ∧ interpolates body) then
    .interpolatedString
  else .string

/-- The string at the start of a text. One without an end is an error that takes all of the text. -/
def quoted? : Bytes → Option Lexeme
  | [] => none
  | c :: s =>
    if isQuote c then
      match body? c s with
      | some body => some ⟨kind c body, c :: body⟩
      | none => some ⟨.error, c :: s⟩
    else none

end Quoted

end TextDomain
