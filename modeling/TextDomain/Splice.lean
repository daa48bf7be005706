import TextDomain.Bytes

/-!
# Splicing texts

An `Edit` puts a text in place of some bytes. `splice` carries out edits that stand in order and do
not overlap, and leaves all other bytes as they are.
-/

namespace TextDomain

/-- Puts `text` in place of the `length` bytes from `offset` on. -/
structure Edit where
  offset : Nat
  length : Nat
  text : Bytes
  deriving DecidableEq, Repr

/-- The offset after the bytes that an edit takes out. -/
def Edit.stop (e : Edit) : Nat :=
  e.offset + e.length

/-- Carries out edits on `content`, which starts at the offset `start`. -/
def splice (start : Nat) (content : Bytes) : List Edit → Bytes
  | [] => content
  | e :: edits =>
    content.take (e.offset - start) ++ e.text ++
      splice e.stop (content.drop (e.stop - start)) edits

end TextDomain
