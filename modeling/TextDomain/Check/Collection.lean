import TextDomain.Disk.Search

/-!
# From paths to files

`Tree.collect` turns the paths that are to be checked into files: a folder stands for all code below
it, a file for itself if it holds code. A path that leads nowhere makes the collection incomplete.
-/

namespace TextDomain

/-- The files that paths stand for. -/
structure Collection where
  files : List Bytes
  events : List Event
  /-- Every path led to something. -/
  complete : Bool
  deriving DecidableEq, Repr

/-- The files that one path stands for: all code below a folder, or the file itself. -/
def Tree.collectPath (t : Tree) (path : Bytes) : Collection :=
  match t.status path with
  | .folder =>
    let (files, events) := t.search path
    ⟨files, events, true⟩
  | .file =>
    if Path.isPhp path then ⟨[path], [], true⟩
    else ⟨[], [.of .warn "lint" (path ++ ascii " is not a PHP file, skipping")], true⟩
  | _ => ⟨[], [.of .error "lint" (path ++ ascii " does not exist")], false⟩

/-- The files that paths stand for, path by path. -/
def Tree.collect (t : Tree) : List Bytes → Collection
  | [] => ⟨[], [], true⟩
  | path :: paths =>
    let first := t.collectPath path
    let rest := t.collect paths
    ⟨first.files ++ rest.files, first.events ++ rest.events, first.complete && rest.complete⟩

end TextDomain
