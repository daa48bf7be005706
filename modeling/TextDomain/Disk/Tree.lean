import TextDomain.Disk.Path

/-!
# Trees of files

A `Tree` holds the files, folders and links of a disk by their place, which is the list of names
that lead there from the top, and says which folder is the present one. `Tree.resolve` follows a
path and every link on it. `Tree.status`, `Tree.read?` and `Tree.write` are what programs can ask
for: whether something is a file or a folder, its content, and a new content. Files and folders may
be closed to some uses, and a device may be full.
-/

namespace TextDomain

/-- The names that lead to an entry from the top of the tree. -/
abbrev Place := List Bytes

/-- What a file or folder may be used for. -/
structure Access where
  /-- A file can be read, or a folder can be listed. -/
  read : Bool
  /-- A file can be written, or files can be made in a folder. -/
  write : Bool
  /-- Paths lead through a folder. -/
  search : Bool
  /-- How many bytes there is room for in a file; any number if it is none. -/
  room : Option Nat
  deriving DecidableEq, Inhabited, Repr

namespace Access

def full : Access :=
  ⟨true, true, true, none⟩

def readOnly : Access :=
  ⟨true, false, true, none⟩

def denied : Access :=
  ⟨false, false, false, none⟩

/-- As much of a text as there is room for. -/
def cut (access : Access) (text : Bytes) : Bytes :=
  match access.room with
  | none => text
  | some room => text.take room

end Access

inductive Entry where
  | file (content : Bytes) (access : Access)
  | folder (access : Access)
  /-- A path that is followed in place of the link, from the folder the link is in. -/
  | link (target : Bytes)
  /-- A device or the like: nothing is read from it, and what is written to it is gone. -/
  | special (access : Access)
  deriving DecidableEq, Inhabited, Repr

/-- Files, folders and links by their places. Folders are listed in the order of the entries. -/
structure Tree where
  entries : List (Place × Entry)
  /-- The place of the present folder, where paths start that are not absolute. -/
  home : Place
  deriving Inhabited, Repr

/-- Where a path leads. -/
inductive Found where
  /-- To an entry that is not a link. -/
  | entry (place : Place)
  /-- To nothing, but in a folder. -/
  | vacant (place : Place)
  | missing
  /-- Through more links than are followed. -/
  | looped
  /-- Through a folder that may not be searched. -/
  | denied
  deriving DecidableEq, Repr

/-- What a path leads to, as far as can be told without opening it. -/
inductive Status where
  | file
  | folder
  /-- To something else. -/
  | special
  | absent
  | looped
  | denied
  deriving DecidableEq, Repr

namespace Tree

/-- How many links a path may lead through. -/
def maxLinks : Nat := 40

/-- The entry at a place. The top is a folder even if nothing is said about it. -/
def find? (t : Tree) (place : Place) : Option Entry :=
  match t.entries.lookup place with
  | some entry => some entry
  | none => if place = [] then some (.folder .full) else none

/-- Entries with the one at a place replaced, or with a new one at the end. -/
def putAmong (place : Place) (entry : Entry) : List (Place × Entry) → List (Place × Entry)
  | [] => [(place, entry)]
  | (here, found) :: entries =>
    if here = place then (place, entry) :: entries
    else (here, found) :: putAmong place entry entries

/-- Puts an entry at a place, instead of the one that is there. -/
def put (t : Tree) (place : Place) (entry : Entry) : Tree :=
  { t with entries := putAmong place entry t.entries }

theorem lookup_cons_eq (here other : Place) (found : Entry) (entries : List (Place × Entry)) :
    ((here, found) :: entries).lookup other =
      if other = here then some found else entries.lookup other := by
  by_cases h : other = here
  · simp [h]
  · have hb : (other == here) = false := by simpa using h
    simp [List.lookup_cons, hb, h]

theorem lookup_putAmong (place other : Place) (entry : Entry) :
    ∀ entries : List (Place × Entry), (putAmong place entry entries).lookup other =
      if other = place then some entry else entries.lookup other
  | [] => lookup_cons_eq place other entry []
  | (here, found) :: entries => by
    rw [putAmong, lookup_cons_eq here other found]
    split
    · rename_i hhere
      rw [lookup_cons_eq, hhere]
      split <;> rfl
    · rename_i hhere
      rw [lookup_cons_eq, lookup_putAmong place other entry entries]
      by_cases h : other = here
      · rw [if_pos h, if_neg (h ▸ hhere), if_pos h]
      · rw [if_neg h, if_neg h]

theorem lookup_put (t : Tree) (place other : Place) (entry : Entry) :
    (t.put place entry).entries.lookup other =
      if other = place then some entry else t.entries.lookup other :=
  lookup_putAmong place other entry t.entries

@[simp] theorem find?_put_self (t : Tree) (place : Place) (entry : Entry) :
    (t.put place entry).find? place = some entry := by
  simp [find?, lookup_put]

theorem find?_put_of_ne (t : Tree) {place other : Place} (entry : Entry) (h : other ≠ place) :
    (t.put place entry).find? other = t.find? other := by
  simp [find?, lookup_put, h]

/-- Where a path starts that is followed from the folder at `here`. -/
def origin (here : Place) (path : Bytes) : Place :=
  if Path.isAbsolute path then [] else here

/-- Where one step leads. -/
inductive Move where
  /-- To an entry that is not a link. -/
  | entry (place : Place)
  | link (target : Bytes)
  /-- To nothing, but in a folder. -/
  | vacant (place : Place)
  /-- There is no folder to go on from. -/
  | missing
  /-- The folder may not be searched. -/
  | denied

/-- One step from the entry at `here`. There is nothing above the top. -/
def move (t : Tree) (here : Place) (step : PathStep) : Move :=
  match t.find? here with
  | some (.folder access) =>
    match step with
    | .beFolder => .entry here
    | .stay => if access.search then .entry here else .denied
    | .up => if access.search then .entry here.dropLast else .denied
    | .down name =>
      if access.search then
        match t.find? (here ++ [name]) with
        | none => .vacant (here ++ [name])
        | some (.link target) => .link target
        | some _ => .entry (here ++ [name])
      else .denied
  | _ => .missing

/-- Follows steps from the entry at `here`. A link is left to `jump`, which is given the folder that
the link is in, its target and the steps that come after it. -/
def walk (t : Tree) (jump : Place → Bytes → List PathStep → Found) (here : Place) :
    List PathStep → Found
  | [] => .entry here
  | step :: rest =>
    match t.move here step with
    | .entry place => t.walk jump place rest
    | .link target => jump here target rest
    | .vacant place => if rest = [] then .vacant place else .missing
    | .missing => .missing
    | .denied => .denied

/-- Follows steps from the entry at `here`, through `links` links at most. -/
def follow (t : Tree) : (links : Nat) → (here : Place) → List PathStep → Found
  | 0 => t.walk fun _ _ _ => .looped
  | links + 1 => t.walk fun here target rest =>
    match Path.steps? target with
    | none => .missing
    | some steps => t.follow links (origin here target) (steps ++ rest)

/-- Where a path leads. -/
def resolve (t : Tree) (path : Bytes) : Found :=
  match Path.steps? path with
  | none => .missing
  | some steps => t.follow maxLinks (origin t.home path) steps

/-- What a path leads to. -/
def status (t : Tree) (path : Bytes) : Status :=
  match t.resolve path with
  | .entry place =>
    match t.find? place with
    | some (.file _ _) => .file
    | some (.folder _) => .folder
    | some (.special _) => .special
    | _ => .absent
  | .vacant _ => .absent
  | .missing => .absent
  | .looped => .looped
  | .denied => .denied

/-- The content of a file. A folder can be opened like a file, and is empty. -/
def read? (t : Tree) (path : Bytes) : Option Bytes :=
  match t.resolve path with
  | .entry place =>
    match t.find? place with
    | some (.file content access) => if access.read then some content else none
    | some (.folder access) => if access.read then some [] else none
    | some (.special access) => if access.read then some [] else none
    | _ => none
  | _ => none

/-- The content of the file at a place, empty if there is none. -/
def contentAt (t : Tree) (place : Place) : Bytes :=
  match t.find? place with
  | some (.file content _) => content
  | _ => []

/-- Gives the file at a place another content, as far as there is room for it. -/
def setContent (t : Tree) (place : Place) (content : Bytes) : Tree :=
  match t.find? place with
  | some (.file _ access) => t.put place (.file (access.cut content) access)
  | _ => t

/-- There is room for a content at a place. -/
def hasRoom (t : Tree) (place : Place) (content : Bytes) : Bool :=
  match t.find? place with
  | some (.file _ access) => access.cut content == content
  | _ => true

/-- Opens a file for writing: its place, and the tree in which it exists. A file that is not there
is made if the folder allows it. -/
def open? (t : Tree) (path : Bytes) : Option (Place × Tree) :=
  match t.resolve path with
  | .entry place =>
    match t.find? place with
    | some (.file _ access) => if access.write then some (place, t) else none
    | some (.special access) => if access.write then some (place, t) else none
    | _ => none
  | .vacant place =>
    match t.find? place.dropLast with
    | some (.folder access) =>
      if access.write then some (place, t.put place (.file [] .full)) else none
    | _ => none
  | _ => none

/-- What comes of writing a file. -/
inductive Written where
  /-- It cannot be opened. -/
  | refused
  /-- There was room for a part only, which is all that the file holds now. -/
  | cutShort (t : Tree)
  | whole (t : Tree)

/-- Writes a file in place of what it holds. -/
def write (t : Tree) (path content : Bytes) : Written :=
  match t.open? path with
  | none => .refused
  | some (place, t) =>
    let t' := t.setContent place content
    if t.hasRoom place content then .whole t' else .cutShort t'

end Tree

end TextDomain
