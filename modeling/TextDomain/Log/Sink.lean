import TextDomain.Log.Record
import TextDomain.World

/-!
# Where log records go

A `Sink` takes records. A console writes them to a stream at once. A `LogFile` gathers them and
writes them to its file when it is told to (`LogFile.flush`), when a record of level `Level.error`
or above comes, and when it is closed. A file that is appended to takes new text at its end,
whatever has happened to it in the meantime; any other keeps its own place in it.
-/

namespace TextDomain

/-- Text put into a content from an offset on, over what stands there. A gap before the offset is
filled with NUL bytes. -/
def overwrite (content : Bytes) (offset : Nat) (text : Bytes) : Bytes :=
  content.take offset ++ List.replicate (offset - content.length) Byte.nul ++ text ++
    content.drop (offset + text.length)

/-- A file that records are written to. -/
structure LogFile where
  place : Place
  format : RecordFormat
  /-- The offset for the next text, or none if text goes to the end. -/
  offset : Option Nat
  /-- What has not been written yet. -/
  pending : Bytes
  deriving DecidableEq, Repr

namespace LogFile

/-- The content of a log file after what is pending has been written to it. -/
def updated (f : LogFile) (content : Bytes) : Bytes :=
  match f.offset with
  | none => content ++ f.pending
  | some offset => overwrite content offset f.pending

/-- Writes what is pending. -/
def flush (f : LogFile) (w : World) : LogFile × World :=
  if f.pending = [] then (f, w)
  else
    ({ f with offset := f.offset.map (· + f.pending.length), pending := [] },
      { w with tree := w.tree.setContent f.place (f.updated (w.tree.contentAt f.place)) })

/-- Takes a record. -/
def write (f : LogFile) (r : Record) (w : World) : LogFile × World :=
  let f := { f with pending := f.pending ++ r.render f.format w.clock none }
  if Level.error ≤ r.level then f.flush w else (f, w)

/-- Opens a file to log to, at its end or in place of what it holds. -/
def open? (path : Bytes) (append : Bool) (format : RecordFormat) (w : World) :
    Option (LogFile × World) :=
  (w.tree.open? path).map fun (place, tree) =>
    if append then (⟨place, format, none, []⟩, { w with tree := tree })
    else (⟨place, format, some 0, []⟩, { w with tree := tree.setContent place [] })

end LogFile

/-- Something that takes records. -/
inductive Sink where
  | console (stream : Stream) (colors : Bool) (format : RecordFormat)
  | file (file : LogFile)
  deriving DecidableEq, Repr

namespace Sink

/-- Takes a record. -/
def write (r : Record) (w : World) : Sink → Sink × World
  | console stream colors format =>
    let color := if colors then some r.level.color else none
    (console stream colors format, w.write stream (r.render format w.clock color))
  | file f =>
    let (f, w) := f.write r w
    (file f, w)

/-- Writes what is pending. -/
def flush (w : World) : Sink → Sink × World
  | console stream colors format => (console stream colors format, w)
  | file f =>
    let (f, w) := f.flush w
    (file f, w)

/-- Does the same with every sink, one after the other. -/
def each (action : World → Sink → Sink × World) : List Sink → World → List Sink × World
  | [], w => ([], w)
  | s :: rest, w =>
    let (s, w) := action w s
    let (rest, w) := each action rest w
    (s :: rest, w)

end Sink

end TextDomain
