import TextDomain.Diagnostic.Emitter
import TextDomain.Log.Options
import TextDomain.Renaming

/-!
# Options for checking

`Options.parse` reads the arguments of a check from left to right. Arguments that do not start
with a dash are paths, and so is everything after `--`; arguments about logging are passed over.
The first argument that makes no sense ends the reading with an `OptionError`.
-/

namespace TextDomain

/-- What a check is asked to do. -/
structure Options where
  fix : Bool
  help : Bool
  colors : Bool
  format : ReportFormat
  old : Bytes
  new : Bytes
  paths : List Bytes
  deriving DecidableEq, Inhabited, Repr

/-- An argument that makes no sense. -/
inductive OptionError where
  | incompleteSetting
  | unknownSetting (name : Bytes)
  | unknownFormat (name : Bytes)
  | unknownOption (arg : Bytes)
  deriving DecidableEq, Repr

def OptionError.message : OptionError → Bytes
  | incompleteSetting => ascii "--runtime-set requires a name and a value"
  | unknownSetting name =>
    ascii "Unknown runtime setting '" ++ name ++
      ascii "' (expected originalTextDomain or targetTextDomain)"
  | unknownFormat name =>
    ascii "Unknown report format '" ++ name ++ ascii "' (expected text or json)"
  | unknownOption arg => ascii "Unknown option '" ++ arg ++ ascii "'"

/-- What one argument asks for. -/
inductive Request where
  /-- The argument `--`, after which all arguments are paths. -/
  | pathsOnly
  | fix
  | help
  | old (domain : Bytes)
  | new (domain : Bytes)
  /-- A setting whose name and value are the next two arguments. -/
  | setting
  | format (name : Bytes)
  | plain
  /-- Something for the logger. -/
  | logging
  | path
  | unknown
  deriving DecidableEq, Repr

/-- A path does not start with a dash, or is nothing else. -/
def isPathArg (arg : Bytes) : Bool :=
  arg.head? != some Byte.minus || arg == ascii "-"

/-- Tells what an argument asks for. -/
def Request.ofArg (arg : Bytes) : Request :=
  if isPathArg arg then .path
  else if arg = ascii "--" then .pathsOnly
  else if arg = ascii "--fix" then .fix
  else if arg = ascii "--help" ∨ arg = ascii "-h" then .help
  else if arg = ascii "--runtime-set" then .setting
  else if arg = ascii "--no-color" then .plain
  else
    (((Bytes.after? (ascii "--original-text-domain=") arg).map Request.old) <|>
      ((Bytes.after? (ascii "--target-text-domain=") arg).map Request.new) <|>
      ((Bytes.after? (ascii "--format=") arg).map Request.format)).getD
      (if (LogOption.ofArg? arg).isSome then .logging else .unknown)

namespace Options

/-- What is done if nothing is asked for. -/
def initial : Options :=
  ⟨false, false, true, .text, [], [], []⟩

/-- The renaming that is asked for. -/
def toRenaming (o : Options) : Renaming :=
  ⟨o.old, o.new⟩

/-- Applies a setting given by name. -/
def set (o : Options) (name value : Bytes) : Except OptionError Options :=
  if name = ascii "originalTextDomain" then .ok { o with old := value }
  else if name = ascii "targetTextDomain" then .ok { o with new := value }
  else .error (.unknownSetting name)

/-- Sets the report format by name. -/
def setFormat (o : Options) (name : Bytes) : Except OptionError Options :=
  if name = ascii "text" then .ok { o with format := .text }
  else if name = ascii "json" then .ok { o with format := .json }
  else .error (.unknownFormat name)

/-- Reads arguments from left to right. -/
def read (o : Options) : List Bytes → Except OptionError Options
  | [] => .ok o
  | arg :: args =>
    match Request.ofArg arg with
    | .path => { o with paths := o.paths ++ [arg] }.read args
    | .pathsOnly => .ok { o with paths := o.paths ++ args }
    | .fix => { o with fix := true }.read args
    | .help => { o with help := true }.read args
    | .old domain => { o with old := domain }.read args
    | .new domain => { o with new := domain }.read args
    | .setting =>
      match args with
      | name :: value :: args =>
        match o.set name value with
        | .ok o => o.read args
        | .error e => .error e
      | _ => .error .incompleteSetting
    | .format name =>
      match o.setFormat name with
      | .ok o => o.read args
      | .error e => .error e
    | .plain => { o with colors := false }.read args
    | .logging => o.read args
    | .unknown => .error (.unknownOption arg)

/-- Without a path the present folder is meant. -/
def withDefaultPath (o : Options) : Options :=
  if o.paths = [] then { o with paths := [ascii "."] } else o

/-- Reads the arguments of a check. -/
def parse (args : List Bytes) : Except OptionError Options :=
  (initial.read args).map withDefaultPath

end Options

end TextDomain
