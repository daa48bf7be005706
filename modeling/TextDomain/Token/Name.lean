import TextDomain.Bytes

/-!
# Names

A variable is a dollar sign and a name (`variableName?`). An identifier is a name, possibly with a
backslash before it, and names joined by backslashes make one qualified identifier (`identifier?`).
-/

namespace TextDomain

namespace Name

/-- A name without backslashes. -/
def IsSimple (name : Bytes) : Prop :=
  ∃ c tail, name = c :: tail ∧ Byte.isNameStart c = true ∧ ∀ b ∈ tail, Byte.isNameByte b = true

/-- The variable at the start of a text. -/
def variableName? : Bytes → Option Bytes
  | [] => none
  | c :: s =>
    if c = Byte.dollar ∧ Bytes.startsIn Byte.isNameStart s then
      some (Byte.dollar :: s.takeWhile Byte.isNameByte)
    else none

/-- Name bytes, and backslashes with a name start after them. -/
def qualified : Bytes → Bytes
  | [] => []
  | c :: s =>
    if Byte.isNameByte c ∨ (c = Byte.backslash ∧ Bytes.startsIn Byte.isNameStart s) then
      c :: qualified s
    else []

/-- The identifier at the start of a text. -/
def identifier? (s : Bytes) : Option Bytes :=
  match s with
  | [] => none
  | c :: t =>
    if Byte.isNameStart c ∨ (c = Byte.backslash ∧ Bytes.startsIn Byte.isNameStart t) then
      some (qualified s)
    else none

end Name

end TextDomain
