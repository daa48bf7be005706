import TextDomain.Disk.Tree
import TextDomain.Log.Event

/-!
# Searching folders for code

`Tree.search` lists the code below a folder, in the order of the paths. Folders of other people's
code and hidden folders are left out, whatever lies in them, and links to folders are not entered;
the folder that is searched is searched whatever its name is. A folder that may not be listed counts
as empty. A link that cannot be followed ends the search with what was found before it, which
depends on the order in which the folders are listed.
-/

namespace TextDomain

/-- The names of folders that are left out: `vendor`, `node_modules` and hidden ones. -/
def isSkippedName (name : Bytes) : Bool :=
  name == ascii "vendor" || name == ascii "node_modules" ||
    (1 < name.length && name.head? == some Byte.dot && name != ascii "..")

/-- What lies below a searched folder, by the names that lead there from it. -/
structure Visit where
  names : Place
  entry : Entry
  deriving DecidableEq, Repr

namespace Visit

/-- The path of a visited entry below the folder `dir`. -/
def path (dir : Bytes) (v : Visit) : Bytes :=
  v.names.foldl Path.join dir

/-- The last name of a visited entry. -/
def name (v : Visit) : Bytes :=
  v.names.getLastD []

end Visit

namespace Tree

/-- Paths lead through the folder at a place. -/
def isSearchable (t : Tree) (place : Place) : Bool :=
  match t.find? place with
  | some (.folder access) => access.search
  | _ => false

/-- The folder at a place is listed on the way to what is below it. -/
def isEntered (t : Tree) (place : Place) : Bool :=
  match t.find? place with
  | some (.folder access) => access.read && !isSkippedName (place.getLastD [])
  | _ => false

/-- All folders between the one at `here` and the end of `names` are entered, each of them through
the one above it. -/
def leadsTo (t : Tree) (here : Place) : Place → Bool
  | [] => false
  | [_] => true
  | name :: rest =>
    t.isSearchable here && t.isEntered (here ++ [name]) && t.leadsTo (here ++ [name]) rest

/-- What lies below the folder at `top` and is reached from it. -/
def visits (t : Tree) (top : Place) : List Visit :=
  t.entries.filterMap fun (place, entry) =>
    if top.isPrefixOf place ∧ t.leadsTo top (place.drop top.length) then
      some (Visit.mk (place.drop top.length) entry)
    else none

/-- What a visited entry is, links being followed. -/
def visitStatus (t : Tree) (dir : Bytes) (v : Visit) : Status :=
  match v.entry with
  | .file _ _ => .file
  | .folder _ => .folder
  | .link _ => t.status (v.path dir)
  | .special _ => .special

/-- The warning about a folder that cannot be searched to the end: which system call failed and on
what path. -/
def accessWarning (dir : Bytes) (reason : String) (path : Bytes) : Event :=
  .of .warn "lint" (ascii "Cannot access " ++ dir ++ ascii ": filesystem error: " ++ ascii reason ++
    ascii " [" ++ path ++ ascii "]")

/-- What a link that leads through too many links is reported with. -/
def loopReason : String := "status: Too many levels of symbolic links"

/-- What a path that may not be followed is reported with. -/
def deniedReason : String := "status: Permission denied"

/-- The code among visited entries, and what there is to log about them. -/
def sift (t : Tree) (dir : Bytes) : List Visit → List Bytes × List Event
  | [] => ([], [])
  | v :: vs =>
    let path := v.path dir
    match t.visitStatus dir v with
    | .looped => ([], [accessWarning dir loopReason path])
    | .denied => ([], [accessWarning dir deniedReason path])
    | .folder =>
      let (files, events) := t.sift dir vs
      if isSkippedName v.name then
        (files, .of .debug "lint" (ascii "Skipping directory " ++ path) :: events)
      else (files, events)
    | .file =>
      let (files, events) := t.sift dir vs
      if Path.isPhp path then (path :: files, events) else (files, events)
    | .special => t.sift dir vs
    | .absent => t.sift dir vs

/-- The code below the folder that a path leads to, and what there is to log about the search. -/
def search (t : Tree) (dir : Bytes) : List Bytes × List Event :=
  match t.resolve dir with
  | .entry top =>
    match t.find? top with
    | some (.folder access) =>
      if access.read then
        let (files, events) := t.sift dir (t.visits top)
        (files.mergeSort Path.precedes, events)
      else ([], [])
    | _ =>
      ([], [accessWarning dir
        "recursive directory iterator cannot open directory: Not a directory" dir])
  | .looped => ([], [accessWarning dir loopReason dir])
  | .denied => ([], [accessWarning dir deniedReason dir])
  | .vacant _ => ([], [])
  | .missing => ([], [])

end Tree

end TextDomain
