import Mathlib.Data.List.Basic
import TextDomain.Check.Collection

/-!
# Trees up to the contents of files

The outline of a tree (`Tree.outline`) has all its names, kinds, modes and links, in their order,
and nothing in its files. Where paths lead and what they stand for is the same in a tree and in its
outline (`Tree.resolve_outline`, `Tree.collect_outline`), and giving a file another content does not
change the outline (`Tree.outline_setContent`). So two trees with one outline are searched alike.
-/

namespace TextDomain

/-- An entry without the content of a file. -/
def Entry.outline : Entry → Entry
  | .file _ access => .file [] access
  | .folder access => .folder access
  | .link target => .link target
  | .special access => .special access

def Visit.outline (v : Visit) : Visit :=
  ⟨v.names, v.entry.outline⟩

namespace Tree

/-- The tree with no content in any file: names, kinds, modes and links. -/
def outline (t : Tree) : Tree :=
  { t with entries := t.entries.map fun e => (e.1, e.2.outline) }

@[simp] theorem find?_outline (t : Tree) (place : Place) :
    t.outline.find? place = (t.find? place).map Entry.outline := by
  have hlookup : ∀ entries : List (Place × Entry),
      (entries.map fun e => (e.1, e.2.outline)).lookup place =
        (entries.lookup place).map Entry.outline := by
    intro entries
    induction entries with
    | nil => rfl
    | cons e entries ih =>
      rw [List.map_cons, lookup_cons_eq, lookup_cons_eq, ih]
      split <;> rfl
  rw [find?, find?, outline, hlookup]
  cases t.entries.lookup place with
  | some entry => rfl
  | none => dsimp only [Option.map_none]; split <;> rfl

theorem move_outline (t : Tree) (here : Place) (step : PathStep) :
    t.outline.move here step = t.move here step := by
  unfold move
  rw [find?_outline]
  rcases t.find? here with _ | (_ | access | _ | _)
  case some.folder =>
    cases step with
    | down name =>
      simp only [Option.map_some, Entry.outline, find?_outline]
      rcases t.find? (here ++ [name]) with _ | (_ | _ | _ | _) <;> rfl
    | _ => rfl
  all_goals rfl

theorem walk_outline (t : Tree) (jump : Place → Bytes → List PathStep → Found) (here : Place)
    (steps : List PathStep) : t.outline.walk jump here steps = t.walk jump here steps := by
  induction steps generalizing here with
  | nil => rfl
  | cons step rest ih =>
    rw [walk, walk, move_outline]
    cases t.move here step with
    | entry place => exact ih place
    | _ => rfl

theorem follow_outline (t : Tree) (links : Nat) (here : Place) (steps : List PathStep) :
    t.outline.follow links here steps = t.follow links here steps := by
  induction links generalizing here steps with
  | zero => exact walk_outline t _ here steps
  | succ links ih =>
    rw [follow, follow, walk_outline]
    congr 1
    funext here target rest
    cases Path.steps? target with
    | none => rfl
    | some steps => exact ih _ _

@[simp] theorem resolve_outline (t : Tree) (path : Bytes) :
    t.outline.resolve path = t.resolve path := by
  unfold resolve
  split
  · rfl
  · exact follow_outline t _ _ _

@[simp] theorem status_outline (t : Tree) (path : Bytes) :
    t.outline.status path = t.status path := by
  unfold status
  rw [resolve_outline]
  cases t.resolve path with
  | entry place =>
    dsimp only
    rw [find?_outline]
    cases t.find? place with
    | none => rfl
    | some entry => cases entry <;> rfl
  | _ => rfl

/-- The place that a path is opened at. -/
def opened? (t : Tree) (path : Bytes) : Option Place :=
  (t.open? path).map Prod.fst

@[simp] theorem opened?_outline (t : Tree) (path : Bytes) :
    t.outline.opened? path = t.opened? path := by
  unfold opened? open?
  rw [resolve_outline]
  cases t.resolve path with
  | entry place =>
    simp only [find?_outline]
    rcases t.find? place with _ | (⟨_, access⟩ | _ | _ | access)
    case some.file => cases hwrite : access.write <;> simp [Entry.outline, hwrite]
    case some.special => cases hwrite : access.write <;> simp [Entry.outline, hwrite]
    all_goals rfl
  | vacant place =>
    simp only [find?_outline]
    rcases t.find? place.dropLast with _ | (_ | access | _ | _)
    case some.folder => cases hwrite : access.write <;> simp [Entry.outline, hwrite]
    all_goals rfl
  | missing => rfl
  | looped => rfl
  | denied => rfl

@[simp] theorem hasRoom_outline (t : Tree) (place : Place) (content : Bytes) :
    t.outline.hasRoom place content = t.hasRoom place content := by
  unfold hasRoom
  rw [find?_outline]
  rcases t.find? place with _ | (_ | _ | _ | _) <;> rfl

theorem isSearchable_outline (t : Tree) (place : Place) :
    t.outline.isSearchable place = t.isSearchable place := by
  unfold isSearchable
  rw [find?_outline]
  cases t.find? place with
  | none => rfl
  | some entry => cases entry <;> rfl

theorem isEntered_outline (t : Tree) (place : Place) :
    t.outline.isEntered place = t.isEntered place := by
  unfold isEntered
  rw [find?_outline]
  cases t.find? place with
  | none => rfl
  | some entry => cases entry <;> rfl

theorem leadsTo_outline (t : Tree) : ∀ (here names : Place),
    t.outline.leadsTo here names = t.leadsTo here names
  | _, [] => rfl
  | _, [_] => rfl
  | here, name :: next :: rest => by
    change (t.outline.isSearchable here && t.outline.isEntered (here ++ [name]) &&
      t.outline.leadsTo (here ++ [name]) (next :: rest)) = _
    rw [isSearchable_outline, isEntered_outline, leadsTo_outline]
    rfl

/-- What is visited in a tree depends on its outline, but for the contents. -/
theorem visits_outline (t : Tree) (top : Place) :
    t.outline.visits top = (t.visits top).map Visit.outline := by
  simp only [visits, leadsTo_outline]
  rw [outline, List.filterMap_map, List.map_filterMap]
  refine List.filterMap_congr fun e _ => ?_
  dsimp only [Function.comp_apply]
  split <;> rfl

theorem visitStatus_outline (t : Tree) (dir : Bytes) (v : Visit) :
    t.outline.visitStatus dir v.outline = t.visitStatus dir v := by
  obtain ⟨names, entry⟩ := v
  cases entry with
  | link target => exact status_outline t _
  | _ => rfl

theorem sift_outline (t : Tree) (dir : Bytes) : ∀ vs : List Visit,
    t.outline.sift dir (vs.map Visit.outline) = t.sift dir vs
  | [] => rfl
  | v :: vs => by
    rw [List.map_cons, sift, sift, visitStatus_outline, sift_outline t dir vs]
    rfl

theorem search_outline (t : Tree) (dir : Bytes) : t.outline.search dir = t.search dir := by
  unfold search
  rw [resolve_outline]
  cases t.resolve dir with
  | entry top =>
    dsimp only
    rw [find?_outline, visits_outline, sift_outline]
    cases t.find? top with
    | none => rfl
    | some entry => cases entry <;> rfl
  | _ => rfl

theorem collectPath_outline (t : Tree) (path : Bytes) :
    t.outline.collectPath path = t.collectPath path := by
  unfold collectPath
  rw [status_outline, search_outline]

/-- What paths stand for depends on names, kinds, modes and links alone. -/
theorem collect_outline (t : Tree) : ∀ paths : List Bytes,
    t.outline.collect paths = t.collect paths
  | [] => rfl
  | path :: paths => by
    rw [collect, collect, collectPath_outline, collect_outline t paths]

/-! ## Membership in a collection -/

theorem mem_files_collect {t : Tree} {file : Bytes} : ∀ {paths : List Bytes},
    file ∈ (t.collect paths).files ↔ ∃ path ∈ paths, file ∈ (t.collectPath path).files
  | [] => by simp [collect]
  | path :: paths => by simp [collect, mem_files_collect]

theorem complete_collect_iff {t : Tree} : ∀ {paths : List Bytes},
    (t.collect paths).complete = true ↔
      ∀ path ∈ paths, t.status path = .folder ∨ t.status path = .file
  | [] => by simp [collect]
  | path :: paths => by
    have hpath : (t.collectPath path).complete = true ↔
        t.status path = .folder ∨ t.status path = .file := by
      unfold collectPath
      cases t.status path with
      | file => dsimp only; split <;> simp
      | _ => simp
    simp [collect, hpath, complete_collect_iff]

/-! ## Contents -/

theorem putAmong_of_lookup {place : Place} {entry : Entry} : ∀ {entries : List (Place × Entry)},
    entries.lookup place = some entry → putAmong place entry entries = entries
  | [], h => by cases h
  | (here, found) :: entries, h => by
    rw [lookup_cons_eq] at h
    rw [putAmong]
    split
    · rename_i hhere
      rw [if_pos hhere.symm] at h
      rw [hhere, Option.some.inj h]
    · rename_i hhere
      rw [if_neg (Ne.symm hhere)] at h
      rw [putAmong_of_lookup h]

theorem outline_putAmong {place : Place} {entry old : Entry}
    (houtline : entry.outline = old.outline) : ∀ {entries : List (Place × Entry)},
      entries.lookup place = some old →
      (putAmong place entry entries).map (fun e => (e.1, e.2.outline)) =
        entries.map fun e => (e.1, e.2.outline)
  | [], h => by cases h
  | (here, found) :: entries, h => by
    rw [lookup_cons_eq] at h
    rw [putAmong]
    split
    · rename_i hhere
      rw [if_pos hhere.symm] at h
      rw [List.map_cons, List.map_cons, houtline, hhere, Option.some.inj h]
    · rename_i hhere
      rw [if_neg (Ne.symm hhere)] at h
      rw [List.map_cons, List.map_cons, outline_putAmong houtline h]

theorem lookup_of_find?_file {t : Tree} {place : Place} {content : Bytes} {access : Access}
    (h : t.find? place = some (.file content access)) :
    t.entries.lookup place = some (.file content access) := by
  unfold find? at h
  split at h
  · rename_i entry hlookup
    rw [hlookup, h]
  · split at h <;> cases h

/-- Another content leaves the outline as it is. -/
@[simp] theorem outline_setContent (t : Tree) (place : Place) (content : Bytes) :
    (t.setContent place content).outline = t.outline := by
  unfold setContent
  split
  · rename_i old access h
    have hkeep : (Entry.file (access.cut content) access).outline =
        (Entry.file old access).outline := rfl
    exact congrArg (Tree.mk · t.home) (outline_putAmong hkeep (lookup_of_find?_file h))
  · rfl

theorem find?_setContent_self {t : Tree} {place : Place} {old : Bytes} {access : Access}
    (content : Bytes) (h : t.find? place = some (.file old access)) :
    (t.setContent place content).find? place = some (.file (access.cut content) access) := by
  rw [setContent, h]
  exact find?_put_self t place _

theorem find?_setContent_of_ne (t : Tree) {place other : Place} (content : Bytes)
    (h : other ≠ place) : (t.setContent place content).find? other = t.find? other := by
  unfold setContent
  split
  · exact find?_put_of_ne t _ h
  · rfl

end Tree

end TextDomain
