import TextDomain.Bytes

/-!
# Kinds of tokens

A `Lexeme` is a piece of text with its `Kind`. Reading happens in one of two modes, `Mode.markup`
outside the tags and `Mode.code` between them, and the kind of a token alone says which mode follows
it (`Kind.modeAfter`).
-/

namespace TextDomain

inductive Kind where
  /-- The end of the text; its lexeme is empty. -/
  | eof
  | inlineHtml
  | openTag
  | closeTag
  /-- A name, possibly qualified. -/
  | identifier
  | var
  /-- A quoted string without interpolation. -/
  | string
  | interpolatedString
  | heredoc
  | number
  | openParen
  | closeParen
  | comma
  | operator
  /-- A string or heredoc that the text ends in. -/
  | error
  /-- A code that names no kind; no text is read as one. -/
  | other (code : UInt8)
  deriving DecidableEq, Inhabited, Repr

namespace Kind

/-- The kinds in the order of their codes. -/
def table : List (Kind × String) :=
  [(eof, "EOF"), (inlineHtml, "inline_html"), (openTag, "open_tag"), (closeTag, "close_tag"),
    (identifier, "identifier"), (var, "variable"), (string, "string"),
    (interpolatedString, "interpolated_string"), (heredoc, "heredoc"), (number, "number"),
    (openParen, "("), (closeParen, ")"), (comma, ","), (operator, "operator"), (error, "error")]

/-- The kind with a code, counted from zero in the order of `table`. -/
def ofCode (code : UInt8) : Kind :=
  match table[code.toNat]? with
  | some (kind, _) => kind
  | none => other code

/-- The name a kind is listed under. -/
def name (kind : Kind) : Bytes :=
  match table.lookup kind with
  | some text => ascii text
  | none => ascii "unknown"

/-- The kind listed under a name. -/
def ofName? (text : Bytes) : Option Kind :=
  (table.find? fun entry => ascii entry.2 == text).map Prod.fst

end Kind

/-- Whether the text being read is markup or code. -/
inductive Mode where
  | markup
  | code
  deriving DecidableEq, Inhabited, Repr

/-- The mode after a token: an open tag starts code, a close tag ends it, nothing else matters. -/
def Kind.modeAfter (kind : Kind) (mode : Mode) : Mode :=
  match kind with
  | .openTag => .code
  | .closeTag => .markup
  | _ => mode

/-- A piece of text and what it is. -/
structure Lexeme where
  kind : Kind
  text : Bytes
  deriving DecidableEq, Inhabited, Repr

end TextDomain
