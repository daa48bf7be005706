import TextDomain.Source

/-!
# Issues

An `Issue` is what a rule found wrong with one token: where the token is, what is wrong, and the
text that would put it right.
-/

namespace TextDomain

/-- A complaint about one token. -/
structure Issue where
  file : Bytes
  line : UInt32
  column : UInt32
  /-- The length of the token. -/
  length : UInt32
  /-- Line and column of the token's last byte. -/
  endLine : UInt32
  endColumn : UInt32
  /-- The rule and what of it is broken, with a point between them. -/
  code : Bytes
  message : Bytes
  fixable : Bool
  /-- The text that a fix puts in place of the token; empty if there is none. -/
  replacement : Bytes
  deriving DecidableEq, Inhabited, Repr

end TextDomain
