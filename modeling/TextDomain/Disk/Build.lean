import TextDomain.Disk.Tree

/-!
# Building trees

Trees are built entry by entry, with the folders that lead to an entry made as needed. Paths lead
through the links that are there already. A folder is listed in the order of the names.
`Tree.restrict` says afterwards what an entry may be used for, and `Tree.listing` gives the files
that can be seen by listing every folder.
-/

namespace TextDomain

namespace Tree

/-- Nothing but the folders that lead to the present one. -/
def presentAt (home : Place) : Tree where
  entries := (List.range home.length).map fun n => (home.take (n + 1), .folder .full)
  home := home

/-- Nothing but a present folder. -/
def empty : Tree :=
  presentAt [ascii "home"]

/-- Entries with one more, before those at later places, or with the one at its place replaced. -/
def insertAmong (place : Place) (entry : Entry) : List (Place × Entry) → List (Place × Entry)
  | [] => [(place, entry)]
  | (here, found) :: entries =>
    if here = place then (place, entry) :: entries
    else if place < here then (place, entry) :: (here, found) :: entries
    else (here, found) :: insertAmong place entry entries

/-- Puts an entry at a place, so that folders are listed in the order of the names. -/
def insert (t : Tree) (place : Place) (entry : Entry) : Tree :=
  { t with entries := insertAmong place entry t.entries }

/-- Makes a folder where steps from `start` lead to nothing. -/
def makeFolder (t : Tree) (start : Place) (steps : List PathStep) : Tree :=
  match t.follow maxLinks start steps with
  | .vacant place => t.insert place (.folder .full)
  | _ => t

/-- Makes every folder along steps from `start`, after those in `done`, that is not there. -/
def makeFolders (t : Tree) (start : Place) (done : List PathStep) : List PathStep → Tree
  | [] => t
  | step :: rest => (t.makeFolder start (done ++ [step])).makeFolders start (done ++ [step]) rest

/-- Adds a folder. -/
def addFolder (t : Tree) (path : Bytes) : Tree :=
  t.makeFolders (origin t.home path) [] ((Path.steps? path).getD [])

/-- Adds a file, or gives one that is there another content. -/
def addFile (t : Tree) (path content : Bytes) : Tree :=
  let start := origin t.home path
  let steps := (Path.steps? path).getD []
  let t := t.makeFolders start [] steps.dropLast
  match t.follow maxLinks start steps with
  | .vacant place => t.insert place (.file content .full)
  | .entry place => t.setContent place content
  | _ => t

/-- Adds a link. -/
def addLink (t : Tree) (path target : Bytes) : Tree :=
  let start := origin t.home path
  let steps := (Path.steps? path).getD []
  let t := t.makeFolders start [] steps.dropLast
  match t.follow maxLinks start steps.dropLast, steps.getLast? with
  | .entry folder, some (.down name) => t.insert (folder ++ [name]) (.link target)
  | _, _ => t

/-- Says what the entry at a place may be used for. -/
def restrict (t : Tree) (place : Place) (access : Access) : Tree :=
  match t.find? place with
  | some (.file content _) => t.put place (.file content access)
  | some (.folder _) => t.put place (.folder access)
  | some (.special _) => t.put place (.special access)
  | _ => t

/-- The folder at a place and all above it can be listed and searched. -/
def isListed (t : Tree) (place : Place) : Bool :=
  (List.range (place.length + 1)).all fun n =>
    match t.find? (place.take n) with
    | some (.folder access) => access.read && access.search
    | _ => false

/-- A path to a place: from the present folder if it is below that, and from the top otherwise. -/
def pathTo (t : Tree) (place : Place) : Bytes :=
  match t.home.isPrefixOf place, place.drop t.home.length with
  | true, name :: names => names.foldl Path.join name
  | _, _ => place.foldl Path.join [Byte.slash]

/-- The files that listing every folder brings up, by their paths, with what can be read of them. -/
def listing (t : Tree) : List (Bytes × Bytes) :=
  t.entries.filterMap fun (place, entry) =>
    match entry with
    | .file content access =>
      if t.isListed place.dropLast then
        some (t.pathTo place, if access.read then content else [])
      else none
    | _ => none

end Tree

end TextDomain
