import TextDomain.Bytes

/-!
# Paths

A path is text. It starts at the top if it begins with a slash (`Path.isAbsolute`), and at some
folder otherwise. `Path.steps?` takes it apart into the steps that lead along it, `Path.join` adds a
name to it and `Path.isPhp` looks at the extension of the last name. Paths are sorted by their
`Path.components`.
-/

namespace TextDomain

/-- One step along a path. -/
inductive PathStep where
  /-- The name `.`, which needs a folder that can be searched. -/
  | stay
  /-- The name `..`. -/
  | up
  | down (name : Bytes)
  /-- A slash at the end, which needs a folder. -/
  | beFolder
  deriving DecidableEq, Repr

namespace Path

/-- The step that a name stands for. -/
def stepOf (name : Bytes) : PathStep :=
  if name = ascii "." then .stay
  else if name = ascii ".." then .up
  else .down name

/-- The path starts at the top. -/
def isAbsolute (path : Bytes) : Bool :=
  path.head? == some Byte.slash

/-- The path ends with a slash. -/
def endsOpen (path : Bytes) : Bool :=
  path.getLast? == some Byte.slash

/-- The names that a path is made of. -/
def parts (path : Bytes) : List Bytes :=
  (Bytes.splitAt Byte.slash path).filter (· != [])

/-- The steps of a path, as far as the system sees it. An empty path leads nowhere. -/
def steps? (path : Bytes) : Option (List PathStep) :=
  let seen := Bytes.untilNul path
  if seen = [] then none
  else some ((parts seen).map stepOf ++ if endsOpen seen then [.beFolder] else [])

/-- What a path is compared by: whether it is absolute, its names, and an empty name for a slash at
its end. -/
def components (path : Bytes) : List Bytes :=
  (if isAbsolute path then [Byte.slash] else []) ::
    (parts path ++ if endsOpen path && parts path != [] then [[]] else [])

/-- The order that paths are sorted in: name by name, and bytewise within a name. -/
def precedes (path other : Bytes) : Bool :=
  decide (components path ≤ components other)

/-- A path with one more name at its end. -/
def join (path name : Bytes) : Bytes :=
  if endsOpen path then path ++ name else path ++ [Byte.slash] ++ name

/-- What follows the last slash. -/
def fileName (path : Bytes) : Bytes :=
  (path.reverse.takeWhile (· != Byte.slash)).reverse

/-- The last point of a file name and what follows it. A point at the start of the name does not
count. -/
def extension (path : Bytes) : Bytes :=
  let name := fileName path
  let tail := (name.reverse.takeWhile (· != Byte.dot)).reverse
  if tail.length + 1 < name.length then Byte.dot :: tail else []

/-- The file is one of those that hold code. -/
def isPhp (path : Bytes) : Bool :=
  extension path == ascii ".php" || extension path == ascii ".inc"

end Path

end TextDomain
