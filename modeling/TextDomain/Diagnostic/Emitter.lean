import TextDomain.Diagnostic.Line
import TextDomain.Diagnostic.Text

/-!
# Writing out diagnostics

An `Emitter` knows how diagnostics are to be written and the contents they quote. It counts what it
has written.
-/

namespace TextDomain

/-- How reports are written. -/
inductive ReportFormat where
  | text
  | json
  deriving DecidableEq, Inhabited, Repr

structure Emitter where
  format : ReportFormat
  colors : Bool
  /-- The known contents by path, the latest first. -/
  contents : List (Bytes × Bytes)
  written : Nat
  deriving Repr

namespace Emitter

/-- An emitter that knows no content yet. -/
def new (format : ReportFormat) (colors : Bool) : Emitter :=
  ⟨format, colors, [], 0⟩

/-- Makes the content of a file known, in place of what was known of it. -/
def addContent (e : Emitter) (path content : Bytes) : Emitter :=
  { e with contents := (path, content) :: e.contents }

/-- A line of a known file; empty if there is none. -/
def sourceLine (e : Emitter) (path : Bytes) (number : UInt32) : Bytes :=
  match e.contents.lookup path with
  | none => []
  | some content => lineOf content number

/-- A diagnostic as it is written. -/
def render (e : Emitter) (d : Diagnostic) : Bytes :=
  match e.format with
  | .json => d.jsonLine
  | .text => d.text e.colors fun span => e.sourceLine span.file span.start.line

/-- Writes a diagnostic and counts it. -/
def emit (e : Emitter) (d : Diagnostic) : Bytes × Emitter :=
  (e.render d, { e with written := e.written + 1 })

end Emitter

end TextDomain
