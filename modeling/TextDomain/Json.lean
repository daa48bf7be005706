import TextDomain.Decimal

/-!
# JSON text

`Json.escape` writes any bytes as the inside of a JSON string: quotes, backslashes and control bytes
are escaped, all else is kept. The helpers around it put fields together.
-/

namespace TextDomain

namespace Json

/-- One byte as it is written inside a string. -/
def escapeByte (c : UInt8) : Bytes :=
  if c = Byte.doubleQuote then ascii "\\\""
  else if c = Byte.backslash then ascii "\\\\"
  else if c = 0x08 then ascii "\\b"
  else if c = Byte.ff then ascii "\\f"
  else if c = Byte.lf then ascii "\\n"
  else if c = Byte.cr then ascii "\\r"
  else if c = Byte.tab then ascii "\\t"
  else if c < 0x20 then ascii "\\u" ++ hex4 c
  else [c]

/-- The inside of a string. -/
def escape (s : Bytes) : Bytes :=
  s.flatMap escapeByte

/-- A string with its quotes. -/
def string (s : Bytes) : Bytes :=
  Byte.doubleQuote :: escape s ++ [Byte.doubleQuote]

/-- A name, a colon and a value. -/
def field (name : String) (value : Bytes) : Bytes :=
  string (ascii name) ++ ascii ":" ++ value

/-- Texts with commas between them. -/
def commaSeparated : List Bytes → Bytes
  | [] => []
  | [s] => s
  | s :: rest => s ++ [Byte.comma] ++ commaSeparated rest

/-- An object with the given fields. -/
def object (fields : List Bytes) : Bytes :=
  ascii "\x7b" ++ commaSeparated fields ++ ascii "\x7d"

/-- An array of the given values. -/
def array (values : List Bytes) : Bytes :=
  ascii "[" ++ commaSeparated values ++ ascii "]"

end Json

end TextDomain
