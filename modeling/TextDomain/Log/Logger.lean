import TextDomain.Log.Filter
import TextDomain.Log.Options
import TextDomain.Log.Sink

/-!
# Loggers

A `Logger` lets events through or not, and has the sinks they go to. It has a level of its own,
below which nothing gets through whatever the filter says; setting a filter sets that level to the
least one the filter names. `Logger.configure` sets both as a `LogSetup` asks for.
-/

namespace TextDomain

/-- What is logged, and where to. -/
structure Logger where
  level : Level
  filter : Filter
  sinks : List Sink
  deriving DecidableEq, Repr

namespace Logger

/-- The logger of a new process: informative events go to the standard error stream. -/
def initial (terminal : Terminal) : Logger :=
  ⟨.info, .initial, [.console .stderr terminal.logColors .text]⟩

/-- An event of this level in this part of the program gets through. -/
def allows (l : Logger) (level : Level) (module : Bytes) : Bool :=
  l.level ≤ level && l.filter.allows level module

/-- Sets the level of the parts that the filter does not name, and the least level of all. -/
def setLevel (l : Logger) (level : Level) : Logger :=
  { l with level := level, filter := l.filter.setFallback level }

/-- Sets the filter. -/
def setFilter (l : Logger) (spec : Bytes) : Logger :=
  let filter := l.filter.parse spec
  { l with level := filter.minLevel, filter := filter }

/-- Sets level and filter. Without a filter the named parts stay. With one, the level applies to the
parts that are not named only if it is below theirs. -/
def configure (l : Logger) (setup : LogSetup) : Logger :=
  if setup.filter = [] then l.setLevel setup.level
  else
    let filter := l.filter.parse setup.filter
    let filter := if setup.level < filter.fallback then filter.setFallback setup.level else filter
    { l with level := filter.minLevel, filter := filter }

end Logger

end TextDomain
