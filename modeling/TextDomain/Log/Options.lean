import TextDomain.Log.Record

/-!
# Options for logging

`LogOption.ofArg?` says which arguments are about logging and what they ask for, and
`LogSetup.ofArgs` reads all of them. Nothing after `--` is read. A level that is given outright wins
over `-v`, and an environment variable is heeded only if the arguments set neither level nor filter.
-/

namespace TextDomain

/-- What one argument asks of the logger. -/
inductive LogOption where
  | level (word : Bytes)
  | filter (spec : Bytes)
  | file (path : Bytes)
  | format (word : Bytes)
  | quiet
  | plain
  /-- Say more, the more the greater the number. -/
  | verbose (count : Nat)
  deriving DecidableEq, Repr

/-- A dash and nothing but letters `v`, at least one; their number. -/
def verbosity? : Bytes → Option Nat
  | [] => none
  | c :: s => if c = Byte.minus ∧ s ≠ [] ∧ s.all (· == 0x76) then some s.length else none

/-- What an argument asks of the logger, if it is about logging. -/
def LogOption.ofArg? (arg : Bytes) : Option LogOption :=
  (Bytes.after? (ascii "--log-level=") arg).map .level <|>
  (Bytes.after? (ascii "--log-filter=") arg).map .filter <|>
  (Bytes.after? (ascii "--log-file=") arg).map .file <|>
  (Bytes.after? (ascii "--log-format=") arg).map .format <|>
  (if arg = ascii "-q" ∨ arg = ascii "--quiet" then some .quiet else none) <|>
  (if arg = ascii "--no-color" then some .plain else none) <|>
  (if arg = ascii "--verbose" then some (.verbose 1) else none) <|>
  (verbosity? arg).map .verbose

/-- How a logger is set up. -/
structure LogSetup where
  level : Level
  format : RecordFormat
  /-- The specification of a filter, or nothing. -/
  filter : Bytes
  /-- The file to log to, or nothing. -/
  file : Bytes
  console : Bool
  colors : Bool
  deriving DecidableEq, Inhabited, Repr

/-- The options read so far. -/
structure LogChoices where
  setup : LogSetup
  levelGiven : Bool
  filterGiven : Bool
  verbosity : Nat
  deriving DecidableEq, Repr

namespace LogChoices

/-- No option read: warnings and worse, as text, on a console in colour. -/
def initial : LogChoices where
  setup := ⟨.warn, .text, [], [], true, true⟩
  levelGiven := false
  filterGiven := false
  verbosity := 0

/-- Takes in one option. -/
def add (c : LogChoices) : LogOption → LogChoices
  | .level word =>
    { c with setup := { c.setup with level := .ofWord word }, levelGiven := true }
  | .filter spec => { c with setup := { c.setup with filter := spec }, filterGiven := true }
  | .file path => { c with setup := { c.setup with file := path } }
  | .format word =>
    let format := if word = ascii "json" ∨ word = ascii "JSON" then .json else .text
    { c with setup := { c.setup with format := format } }
  | .quiet => { c with setup := { c.setup with level := .error }, levelGiven := true }
  | .plain => { c with setup := { c.setup with colors := false } }
  | .verbose count => { c with verbosity := max c.verbosity count }

/-- The level that `-v`, `-vv` and so on stand for. -/
def verboseLevel? : Nat → Option Level
  | 0 => none
  | 1 => some .info
  | 2 => some .debug
  | _ => some .trace

/-- What the options and the environment variable come to. The variable holds a level or,
if there is an equals sign or a comma in it, a filter. -/
def resolve (c : LogChoices) (environment : Option Bytes) : LogSetup :=
  if c.levelGiven then c.setup else
  match verboseLevel? c.verbosity with
  | some level => { c.setup with level := level }
  | none =>
    let value := environment.getD []
    if c.filterGiven ∨ value = [] then c.setup
    else if value.contains Byte.equals ∨ value.contains Byte.comma then
      { c.setup with filter := value }
    else { c.setup with level := .ofWord value }

end LogChoices

/-- The logger that arguments and the environment variable ask for. -/
def LogSetup.ofArgs (args : List Bytes) (environment : Option Bytes) : LogSetup :=
  let options := (args.takeWhile (· != ascii "--")).filterMap LogOption.ofArg?
  (options.foldl LogChoices.add .initial).resolve environment

end TextDomain
