import TextDomain.Bytes

/-!
# Numbers

A number starts with a digit, or with a point and a digit (`number?`). After `0x`, `0b` or `0o` it
takes every name byte. Otherwise it has digits with underscores between them (`digits`), a fraction
(`fraction`) and an exponent (`exponent`); the parts are not checked beyond that.
-/

namespace TextDomain

namespace Number

/-- The base marks that may follow a leading zero. -/
def isBaseMark (c : UInt8) : Bool :=
  (ascii "xXbBoO").contains c

/-- Digits and underscores. -/
def digits (s : Bytes) : Bytes :=
  s.takeWhile fun c => Byte.isDigit c || c == Byte.underscore

/-- A point with what digits follow it, none at all included. An underscore does not start them. -/
def fraction : Bytes → Bytes
  | [] => []
  | c :: s =>
    if c = Byte.dot then
      if Bytes.startsIn Byte.isDigit s then Byte.dot :: digits s else [Byte.dot]
    else []

/-- The sign at the start of a text, if a digit follows it. -/
def sign : Bytes → Bytes
  | [] => []
  | c :: s =>
    if (c = Byte.plus ∨ c = Byte.minus) ∧ Bytes.startsIn Byte.isDigit s then [c] else []

/-- An exponent mark, an optional sign and digits; nothing if there are no digits. -/
def exponent : Bytes → Bytes
  | [] => []
  | c :: s =>
    if c = 0x65 ∨ c = 0x45 then
      let power := (s.drop (sign s).length).takeWhile Byte.isDigit
      if power = [] then [] else c :: (sign s ++ power)
    else []

/-- A number in base ten: whole part, fraction, exponent. -/
def decimalNumber (s : Bytes) : Bytes :=
  let whole := digits s
  let point := fraction (s.drop whole.length)
  let body := whole ++ point
  body ++ exponent (s.drop body.length)

/-- Whether a number starts a text. -/
def startsNumber : Bytes → Bool
  | [] => false
  | c :: s => Byte.isDigit c || (c == Byte.dot && Bytes.startsIn Byte.isDigit s)

/-- The number at the start of a text. -/
def number? (s : Bytes) : Option Bytes :=
  if ¬ startsNumber s then none
  else if s.head? = some Byte.zero ∧ Bytes.startsIn isBaseMark (s.drop 1) then
    some (s.take 2 ++ (s.drop 2).takeWhile Byte.isNameByte)
  else some (decimalNumber s)

end Number

end TextDomain
