import TextDomain.Token.Kind

/-!
# Calls and their arguments

A call is an identifier from `domainFunctions` and the next open parenthesis after it. `arguments`
walks the tokens after that parenthesis. An argument ends at a comma outside all inner
parentheses or at the parenthesis that closes the call, and is known by the first string literal in
it, inner parentheses included; an argument without one leaves no trace, and so does the last
argument of a call that is never closed. Tokens are named by their position in the stream.
-/

namespace TextDomain

/-- The functions that take a text domain as their last argument. -/
def domainFunctions : List Bytes :=
  ["__", "_e", "_x", "_n", "_nx", "esc_html__", "esc_html_e", "esc_html_x", "esc_attr__",
    "esc_attr_e", "esc_attr_x"].map ascii

def isDomainFunction (name : Bytes) : Bool :=
  domainFunctions.contains name

/-- The token is the name of a function that takes a text domain. -/
def Lexeme.namesDomainFunction (t : Lexeme) : Bool :=
  t.kind == .identifier && isDomainFunction t.text

/-- The position of the first token of a kind at or after `start`. -/
def nextOfKind (tokens : List Lexeme) (kind : Kind) (start : Nat) : Option Nat :=
  ((tokens.drop start).findIdx? (·.kind == kind)).map (start + ·)

/-- The first string literal of an argument: its position and its text, quotes included. -/
structure Argument where
  position : Nat
  literal : Bytes
  deriving DecidableEq, Inhabited, Repr

/-- The arguments among `tokens`, the first of which stands at `position`, `depth` parentheses deep
in the call, `pending` being the literal of the argument that is being read. -/
def argumentsFrom (depth : Nat) (pending : Option Argument) (position : Nat) :
    List Lexeme → List Argument
  | [] => []
  | t :: ts =>
    match t.kind with
    | .openParen => argumentsFrom (depth + 1) pending (position + 1) ts
    | .closeParen =>
      if depth = 1 then pending.toList
      else argumentsFrom (depth - 1) pending (position + 1) ts
    | .comma =>
      if depth = 1 then pending.toList ++ argumentsFrom depth none (position + 1) ts
      else argumentsFrom depth pending (position + 1) ts
    | .string =>
      argumentsFrom depth (pending <|> some ⟨position, t.text⟩) (position + 1) ts
    | _ => argumentsFrom depth pending (position + 1) ts

/-- The arguments of a call, given the tokens after its open parenthesis and the position of the
first of them. -/
def arguments (position : Nat) (tokens : List Lexeme) : List Argument :=
  argumentsFrom 1 none position tokens

/-- The arguments of the call whose open parenthesis stands at `paren`, a 64-bit position. The
token there is not looked at, and the position after the greatest one is zero. -/
def argumentsAfter (tokens : List Lexeme) (paren : UInt64) : List Argument :=
  let first := (paren + 1).toNat
  arguments first (tokens.drop first)

/-- The argument of a call that holds its text domain, which is the last one, given the tokens after
the function's name and the position of the first of them. -/
def domainArgument (position : Nat) (tokens : List Lexeme) : Option Argument :=
  match tokens.findIdx? (·.kind == .openParen) with
  | none => none
  | some skipped =>
    (arguments (position + skipped + 1) (tokens.drop (skipped + 1))).getLast?

/-! ## Literals -/

/-- A quote that a string literal is written in. -/
def isStringQuote (c : UInt8) : Bool :=
  c == Byte.singleQuote || c == Byte.doubleQuote

/-- A text without the quote it starts with, if it does. -/
def dropOpeningQuote : Bytes → Bytes
  | [] => []
  | c :: s => if isStringQuote c then s else c :: s

/-- A text without the quote it ends with, if it does. -/
def dropClosingQuote (s : Bytes) : Bytes :=
  match s.getLast? with
  | some c => if isStringQuote c then s.dropLast else s
  | none => s

/-- The text between the quotes of a literal. The two quotes are taken off one by one, and need
not be the same. -/
def unquote (literal : Bytes) : Bytes :=
  dropClosingQuote (dropOpeningQuote literal)

end TextDomain
