import Std.Time.DateTime.Timestamp
import TextDomain.Command
import TextDomain.Disk.Build

/-!
# The program

The program looks up on disk what its arguments name, runs on the tree that this makes, and writes
back the files that changed. What lies below a folder is read as a list of paths, one a line, from
the standard input.
-/

namespace TextDomain.Program

/-- The bytes of a text. -/
def bytesOf (s : String) : Bytes :=
  s.toUTF8.toList

/-- The text of some bytes, if they are one. -/
def textOf? (b : Bytes) : Option String :=
  String.fromUTF8? (ByteArray.mk b.toArray)

/-- Closes the entry that a path leads to. -/
def closeTo (t : Tree) (path : Bytes) (access : Access) : Tree :=
  match t.resolve path with
  | .entry place => t.restrict place access
  | _ => t

/-- Adds what the disk has under a name, as far as opening it shows. -/
def lookUp (t : Tree) (name : String) : IO Tree := do
  let path := bytesOf name
  match ← (IO.FS.readBinFile name).toBaseIO with
  | .ok content =>
    let t := t.addFile path content.toList
    match ← (IO.FS.Handle.mk name .readWrite).toBaseIO with
    | .ok _ => return t
    | .error _ => return closeTo t path .readOnly
  | .error (.inappropriateType ..) => return t.addFolder path
  | .error (.permissionDenied ..) => return closeTo (t.addFile path []) path .denied
  | .error _ => return t

/-- The lines of a stream up to its end, after those in `lines`, the latest first. -/
partial def readLines (stream : IO.FS.Stream) (lines : List String) : IO (List String) := do
  let line ← stream.getLine
  if line.isEmpty then return lines.reverse
  readLines stream (String.ofList (line.toList.filter (· != '\n')) :: lines)

/-- The disk, as far as a run with these paths and this log file is about it. -/
def loadTree (paths : List Bytes) (logFile : Bytes) : IO Tree := do
  let mut tree := Tree.presentAt (Path.parts (bytesOf (← IO.currentDir).toString))
  let logFolder := logFile.take (logFile.length - (Path.fileName logFile).length)
  for name in (paths ++ [logFolder, logFile]).filterMap textOf? do
    tree ← lookUp tree name
  let stdin ← IO.getStdin
  if paths.any (fun path => tree.status path = .folder) && !(← stdin.isTty) then
    for name in ← readLines stdin [] do
      tree ← lookUp tree name
  return tree

/-- Writes back the files that are new or changed. -/
def storeTree (before after : Tree) : IO Unit := do
  let known := before.listing
  for (path, content) in after.listing do
    if known.lookup path != some content then
      if let some name := textOf? path then
        IO.FS.writeBinFile name (ByteArray.mk content.toArray)

/-- What is known of where output goes. -/
def currentTerminal : IO Terminal := do
  return {
    outIsTerminal := ← (← IO.getStdout).isTty
    errIsTerminal := ← (← IO.getStderr).isTty
    term := (← IO.getEnv "TERM").map bytesOf
    noColor := (← IO.getEnv "NO_COLOR").map bytesOf }

end TextDomain.Program

open TextDomain Program

def main (args : List String) : IO UInt32 := do
  let args := args.map bytesOf
  let logVariable := (← IO.getEnv "DOMAINFIX_LOG").map bytesOf
  let tree ← loadTree (Command.ofArgs args).paths (LogSetup.ofArgs args logVariable).file
  let world : World := {
    tree
    terminal := ← currentTerminal
    logVariable
    clock := (← Std.Time.Timestamp.now).toMillisecondsSinceUnixEpoch.toInt
    out := []
    err := []
    streams := [] }
  let (session, exit) := (Session.start world).run args
  let session := session.closeSinks
  storeTree tree session.world.tree
  (← IO.getStderr).write (ByteArray.mk session.world.err.toArray)
  (← IO.getStdout).write (ByteArray.mk session.world.out.toArray)
  return exit.code
