import TextDomain.Decimal
import TextDomain.Log.Event
import TextDomain.Terminal

/-!
# Log records

A `Record` is an event with the time it happened at. As text it is one line that starts with the
time of day at which it is written; as JSON it is one object that holds the time of the event.
Messages are escaped in JSON as far as records need it: quotes, backslashes, line ends and tabs.
-/

namespace TextDomain

/-- How log records are written. -/
inductive RecordFormat where
  | text
  | json
  deriving DecidableEq, Inhabited, Repr

/-- An event and its time in milliseconds since 1970. -/
structure Record extends Event where
  time : Int
  deriving DecidableEq, Inhabited, Repr

/-- The time of day of a moment given in milliseconds since 1970, as `HH:MM:SS.mmm`. -/
def timeOfDay (clock : Int) : Bytes :=
  let seconds := (Int.tdiv clock 1000) % 86400
  let two (n : Int) : Bytes := padLeft Byte.zero 2 (signed n)
  two (seconds / 3600) ++ ascii ":" ++ two (seconds / 60 % 60) ++ ascii ":" ++ two (seconds % 60) ++
    ascii "." ++ padLeft Byte.zero 3 (signed (Int.tmod clock 1000))

/-- The escape sequence before the name of a level; none for a level without a colour. -/
def Level.color (level : Level) : Bytes :=
  if level = .trace then Style.gray.sequence
  else if level = .debug then Style.cyan.sequence
  else if level = .info then Style.green.sequence
  else if level = .warn then Style.yellow.sequence
  else if level = .error then Style.red.sequence
  else if level = .fatal then Style.boldRed.sequence
  else []

namespace Record

/-- A record as a line of text, written at the time `clock`. With a colour the name of the level
stands between it and a reset. -/
def text (r : Record) (clock : Int) (color : Option Bytes) : Bytes :=
  let name := padRight Byte.space 5 r.level.name
  let painted :=
    match color with
    | some sequence => sequence ++ name ++ Style.reset.sequence
    | none => name
  timeOfDay clock ++ ascii " " ++ painted ++ ascii " [" ++ r.module ++ ascii "] " ++ r.message ++
    [Byte.lf]

/-- One byte of a message as it is written in JSON. -/
def escapeByte (c : UInt8) : Bytes :=
  if c = Byte.doubleQuote then ascii "\\\""
  else if c = Byte.backslash then ascii "\\\\"
  else if c = Byte.lf then ascii "\\n"
  else if c = Byte.cr then ascii "\\r"
  else if c = Byte.tab then ascii "\\t"
  else [c]

/-- A record as a line of JSON. The module is a plain name and is written as it is. -/
def json (r : Record) : Bytes :=
  ascii "\x7b\"ts\":" ++ signed r.time ++ ascii ",\"level\":\"" ++ r.level.name ++
    ascii "\",\"module\":\"" ++ r.module ++ ascii "\",\"msg\":\"" ++ r.message.flatMap escapeByte ++
    ascii "\"\x7d" ++ [Byte.lf]

/-- A record in a format. -/
def render (r : Record) (format : RecordFormat) (clock : Int) (color : Option Bytes) : Bytes :=
  match format with
  | .text => r.text clock color
  | .json => r.json

end Record

end TextDomain
