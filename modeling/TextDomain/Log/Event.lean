import TextDomain.Log.Level

/-!
# Log events

What happens in a run is described by events. An `Event` is plain data: the code that notices
something says so by returning events, and whoever runs it decides where they go.
-/

namespace TextDomain

/-- Something worth a line in the log: how severe, in which part of the program, and what. -/
structure Event where
  level : Level
  module : Bytes
  message : Bytes
  deriving DecidableEq, Inhabited, Repr

namespace Event

/-- An event of the part named `module`. -/
def of (level : Level) (module : String) (message : Bytes) : Event :=
  ⟨level, ascii module, message⟩

end Event

end TextDomain
