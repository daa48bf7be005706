import TextDomain.Token.Kind

/-!
# Operators and delimiters

Parentheses and commas have kinds of their own, because argument lists are read off them. All else
is an operator: the first entry of `operators` that the text begins with, or a single byte.
-/

namespace TextDomain

namespace Symbol

/-- The operators of more than one byte. Of two that begin alike the longer stands first. -/
def operators : List Bytes :=
  ["<<=", ">>=", "**=", "...", "<=>", "===", "!==", "??=", "?->", "->", "=>", "::", "==", "!=",
    "<>", "<=", ">=", "&&", "||", "++", "--", "+=", "-=", "*=", "/=", ".=", "%=", "&=", "|=", "^=",
    "<<", ">>", "??", "**", "#[", "?:"].map ascii

/-- The symbol at the start of a text, which is not empty: its first byte is `c`. -/
def symbol (c : UInt8) (s : Bytes) : Lexeme :=
  if c = Byte.openParen then ⟨.openParen, [c]⟩
  else if c = Byte.closeParen then ⟨.closeParen, [c]⟩
  else if c = Byte.comma then ⟨.comma, [c]⟩
  else ⟨.operator, (operators.find? (·.isPrefixOf (c :: s))).getD [c]⟩

end Symbol

end TextDomain
