import TextDomain.Check

/-!
# The command line

`Command.ofArgs` tells what the arguments ask for: the help text, the version, or a check of the
files that are named. `Session.run` sets up the log and does what is asked.
-/

namespace TextDomain

/-- The name and version of the program. -/
def version : Bytes :=
  ascii "domainfix 0.3.0"

/-- The lines of the help text before the list of functions. -/
def usageLines : List String :=
  ["", "Replace the text domain of WordPress translation calls.", "",
    "Usage: domainfix [lint|fix] [options] [paths...]", "",
    "Commands:",
    "  lint      Report calls that use the original text domain (default)",
    "  fix       Rewrite them to use the target text domain", "",
    "Options:",
    "  --original-text-domain=<d>      Text domain to look for",
    "  --target-text-domain=<d>        Text domain to replace it with",
    "  --runtime-set <name> <value>    originalTextDomain or targetTextDomain",
    "  --fix                           Same as the fix command",
    "  --format=text|json              Report format (default: text)",
    "  --no-color                      Disable colored output",
    "  --help, -h                      Show this help",
    "  --version, -V                   Show version", "",
    "Logging:",
    "  -v, -vv, -vvv                   Info, debug or trace logging",
    "  -q, --quiet                     Errors only",
    "  --log-level=<level>             trace, debug, info, warn, error, off",
    "  --log-filter=<spec>             Per-module levels, e.g. rules=trace,*=warn",
    "  --log-file=<path>               Also write logs to a file",
    "  --log-format=text|json          Log record format", "",
    "If no paths are given, the current directory is checked.", "",
    "Checked functions:"]

/-- The help text. -/
def usage : Bytes :=
  let line (text : Bytes) : Bytes := text ++ [Byte.lf]
  line version ++ usageLines.flatMap (fun text => line (ascii text)) ++
    line (Byte.space :: domainFunctions.flatMap (Byte.space :: ·)) ++ line [] ++
    line (ascii "Exit codes: 0 clean, 1 issues found or fix failed, 2 usage or I/O error")

/-- What the program can be asked to do. -/
inductive Command where
  | usage
  | version
  /-- A check with its own arguments; `fix` asks for fixing whatever those say. -/
  | check (args : List Bytes) (fix : Bool)
  deriving DecidableEq, Repr

namespace Command

/-- What the arguments ask for. All but a few first arguments make it a check. -/
def ofArgs : List Bytes → Command
  | [] => usage
  | first :: rest =>
    if first = ascii "--help" ∨ first = ascii "-h" then usage
    else if first = ascii "--version" ∨ first = ascii "-V" then version
    else if first = ascii "lint" then check rest false
    else if first = ascii "fix" then check rest true
    else check (first :: rest) false

/-- The paths that a command is going to look at. -/
def paths : Command → List Bytes
  | usage => []
  | version => []
  | check args _ =>
    match Options.parse args with
    | .ok o => if o.help then [] else o.paths
    | .error _ => []

end Command

namespace Session

/-- Runs a check with its arguments; `fixCommand` asks for fixing whatever the options say. -/
def lint (s : Session) (args : List Bytes) (fixCommand : Bool) : Session × Exit :=
  match Options.parse args with
  | .error e =>
    let s := s.log (.of .error "cli" e.message)
    (s.complain (ascii "Run 'domainfix --help' for usage information." ++ [Byte.lf]), .trouble)
  | .ok o =>
    if o.help then (s.print usage, .clean) else s.check o (fixCommand || o.fix)

/-- Does what the program is asked to do. After a check, the log is written out. -/
def perform (s : Session) : Command → Session × Exit
  | .usage => (s.print usage, .clean)
  | .version => (s.print (version ++ [Byte.lf]), .clean)
  | .check args fix =>
    let (s, exit) := s.lint args fix
    (s.flush, exit)

/-- Runs the program with its arguments. -/
def run (s : Session) (args : List Bytes) : Session × Exit :=
  (s.init (.ofArgs args s.world.logVariable)).perform (.ofArgs args)

end Session

end TextDomain
