import TextDomain.Bytes

/-!
# Terminals and colours

A `Terminal` is what is known of where output goes. Reports go to the standard output and are
coloured if that is a terminal and nothing speaks against it; log records go to the standard error
stream and do not heed `NO_COLOR`. A `Style` is an escape sequence, which `Style.when` leaves out
where colours are off.
-/

namespace TextDomain

/-- The output streams and the environment variables that say how to write to them. -/
structure Terminal where
  outIsTerminal : Bool
  errIsTerminal : Bool
  /-- The variable `TERM`, if set. -/
  term : Option Bytes
  /-- The variable `NO_COLOR`, if set; its value does not matter. -/
  noColor : Option Bytes
  deriving DecidableEq, Inhabited, Repr

namespace Terminal

/-- The kind of terminal is known, and it is one that understands escape sequences. -/
def understandsColors (t : Terminal) : Bool :=
  match t.term with
  | some kind => kind != ascii "dumb"
  | none => false

/-- Reports are coloured. -/
def reportColors (t : Terminal) : Bool :=
  t.outIsTerminal && t.noColor.isNone && t.understandsColors

/-- Log records are coloured. -/
def logColors (t : Terminal) : Bool :=
  t.errIsTerminal && t.understandsColors

end Terminal

/-- How a piece of text looks on a terminal. -/
inductive Style where
  | reset
  | bold
  | boldRed
  | red
  | green
  | yellow
  | cyan
  | gray
  | brightRed
  | brightGreen
  | brightBlue
  deriving DecidableEq, Repr

namespace Style

/-- The numbers of a style's escape sequence. -/
def code : Style → String
  | reset => "0"
  | bold => "1"
  | boldRed => "1;31"
  | red => "31"
  | green => "32"
  | yellow => "33"
  | cyan => "36"
  | gray => "90"
  | brightRed => "91"
  | brightGreen => "92"
  | brightBlue => "94"

/-- The escape sequence that switches to a style. -/
def sequence (s : Style) : Bytes :=
  0x1b :: ascii "[" ++ ascii s.code ++ ascii "m"

/-- The escape sequence if colours are on. -/
def when (s : Style) (colors : Bool) : Bytes :=
  if colors then s.sequence else []

end Style

end TextDomain
