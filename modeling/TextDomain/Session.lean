import TextDomain.Log.Logger

/-!
# Sessions

A `Session` is a world with the logger that is at work in it. Setting up the logger anew
(`Session.init`) closes all sinks and opens those that are asked for; the parts that the filter
names are forgotten only if a new filter is given. `Session.log` is how all parts of the program
log; `Session.act` does any one `Session.Action`.
-/

namespace TextDomain

/-- A world and the logger at work in it. -/
structure Session where
  world : World
  logger : Logger
  deriving Repr

namespace Session

/-- A new process in a world. -/
def start (w : World) : Session :=
  ⟨w, .initial w.terminal⟩

/-- Writes to the standard output. -/
def print (s : Session) (text : Bytes) : Session :=
  { s with world := s.world.print text }

/-- Writes to the standard error stream. -/
def complain (s : Session) (text : Bytes) : Session :=
  { s with world := s.world.write .stderr text }

@[simp] theorem tree_print (s : Session) (text : Bytes) :
    (s.print text).world.tree = s.world.tree := rfl

@[simp] theorem tree_complain (s : Session) (text : Bytes) :
    (s.complain text).world.tree = s.world.tree := rfl

@[simp] theorem logger_print (s : Session) (text : Bytes) : (s.print text).logger = s.logger := rfl

@[simp] theorem logger_complain (s : Session) (text : Bytes) :
    (s.complain text).logger = s.logger := rfl

/-- Hands a record to every sink. -/
def write (s : Session) (r : Record) : Session :=
  let (sinks, world) := Sink.each (Sink.write r) s.logger.sinks s.world
  ⟨world, { s.logger with sinks := sinks }⟩

/-- Hands an event to every sink, with the present time. -/
def record (s : Session) (e : Event) : Session :=
  s.write ⟨e, s.world.clock⟩

/-- Logs an event if it gets through. Levels below `Level.trace` never do. -/
def log (s : Session) (e : Event) : Session :=
  if Level.trace ≤ e.level ∧ s.logger.allows e.level e.module then s.record e else s

/-- Logs events in order. -/
def logAll (s : Session) (events : List Event) : Session :=
  events.foldl log s

/-- Has every sink write what is pending. -/
def flush (s : Session) : Session :=
  let (sinks, world) := Sink.each Sink.flush s.logger.sinks s.world
  ⟨world, { s.logger with sinks := sinks }⟩

/-- Closes all sinks. -/
def closeSinks (s : Session) : Session :=
  let s := s.flush
  { s with logger := { s.logger with sinks := [] } }

def addSink (s : Session) (sink : Sink) : Session :=
  { s with logger := { s.logger with sinks := s.logger.sinks ++ [sink] } }

/-- Adds a console on a new stream in memory. -/
def addConsole (s : Session) (colors : Bool) (format : RecordFormat) : Session :=
  let index := s.world.streams.length
  let world := { s.world with streams := s.world.streams ++ [[]] }
  { s with world := world }.addSink (.console (.memory index) colors format)

/-- Adds a log file, if it can be opened. -/
def addFile? (s : Session) (path : Bytes) (append : Bool) (format : RecordFormat) :
    Option Session :=
  (LogFile.open? path append format s.world).map fun (file, world) =>
    { s with world := world }.addSink (.file file)

/-- Adds a console on the standard error stream if it is asked for. -/
def openConsole (s : Session) (setup : LogSetup) : Session :=
  if setup.console then
    s.addSink (.console .stderr (setup.colors && s.world.terminal.logColors) setup.format)
  else s

/-- Adds a log file if it is asked for. -/
def openLogFile (s : Session) (setup : LogSetup) : Session :=
  if setup.file = [] then s else
  match s.addFile? setup.file true setup.format with
  | some s => s
  | none =>
    s.complain (ascii "warning: could not open log file: " ++ setup.file ++ [Byte.lf])

/-- Sets up the logger anew. -/
def init (s : Session) (setup : LogSetup) : Session :=
  let s := s.closeSinks
  let s := { s with logger := s.logger.configure setup }
  (s.openConsole setup).openLogFile setup

/-- What can be asked of the logger of a session. -/
inductive Action where
  | init (setup : LogSetup)
  | setLevel (level : Level)
  | setFilter (spec : Bytes)
  /-- Hands a record to every sink as it is. -/
  | write (record : Record)
  /-- Hands an event to every sink, whether it gets through or not. -/
  | record (event : Event)
  /-- Logs an event if it gets through. -/
  | log (event : Event)
  | flush
  | closeSinks
  | addConsole (colors : Bool) (format : RecordFormat)
  | addFile (path : Bytes) (append : Bool) (format : RecordFormat)
  deriving DecidableEq, Repr

/-- Does what is asked of the logger. A file that cannot be opened is not logged to. -/
def act (s : Session) : Action → Session
  | .init setup => s.init setup
  | .setLevel level => { s with logger := s.logger.setLevel level }
  | .setFilter spec => { s with logger := s.logger.setFilter spec }
  | .write record => s.write record
  | .record event => s.record event
  | .log event => s.log event
  | .flush => s.flush
  | .closeSinks => s.closeSinks
  | .addConsole colors format => s.addConsole colors format
  | .addFile path append format => (s.addFile? path append format).getD s

end Session

end TextDomain
