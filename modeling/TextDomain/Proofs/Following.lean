import Mathlib.Data.List.Basic
import TextDomain.Proofs.Outline

/-!
# Where longer paths lead

A path is taken apart at its slashes (`Path.parts`), and a name added to it is one more part. As
long as no NUL byte cuts a path short, its steps are those of its parts (`Path.steps?_foldl_join`),
and it starts where it started before. So a path below a folder leads on from where the folder's own
path leads (`Tree.exists_resolve_below`): through the folders between them if these can be listed,
and from there as the last name alone does, only with fewer links left to follow. That makes no
difference unless the links run out (`Tree.follow_of_le`).
-/

namespace TextDomain

/-! ## The parts of a path -/

theorem Bytes.splitAt_append_sep (sep : UInt8) (s t : Bytes) :
    splitAt sep (s ++ sep :: t) = splitAt sep s ++ splitAt sep t := by
  induction s with
  | nil => simp [splitAt]
  | cons c s ih =>
    rw [List.cons_append, splitAt, splitAt, ih]
    split_ifs
    · rfl
    · obtain ⟨part, parts, hparts⟩ := List.exists_cons_of_ne_nil (splitAt_ne_nil sep s)
      rw [hparts]
      rfl

theorem Bytes.splitAt_of_not_mem {sep : UInt8} {s : Bytes} (h : sep ∉ s) : splitAt sep s = [s] := by
  induction s with
  | nil => rfl
  | cons c s ih =>
    rw [List.mem_cons, not_or] at h
    rw [splitAt, if_neg (Ne.symm h.1), ih h.2]

theorem Bytes.untilNul_of_not_mem {s : Bytes} (h : Byte.nul ∉ s) : untilNul s = s := by
  have hall : ∀ c ∈ s, (c != Byte.nul) = true := fun c hc =>
    bne_iff_ne.mpr fun hnul => h (hnul ▸ hc)
  rw [untilNul, ← List.append_nil s, List.takeWhile_append_of_pos (by simpa using hall)]
  rfl

namespace Path

/-- A name that an entry of a folder can have. -/
def IsName (name : Bytes) : Prop :=
  name ≠ [] ∧ Byte.slash ∉ name ∧ Byte.nul ∉ name ∧ name ≠ ascii "." ∧ name ≠ ascii ".."

instance (name : Bytes) : Decidable (IsName name) :=
  inferInstanceAs (Decidable (_ ∧ _))

theorem IsName.stepOf {name : Bytes} (h : IsName name) : stepOf name = .down name := by
  obtain ⟨-, -, -, hstay, hup⟩ := h
  rw [Path.stepOf, if_neg hstay, if_neg hup]

theorem parts_append_slash (s t : Bytes) : parts (s ++ Byte.slash :: t) = parts s ++ parts t := by
  rw [parts, Bytes.splitAt_append_sep, List.filter_append]
  rfl

theorem IsName.parts {name : Bytes} (h : IsName name) : parts name = [name] := by
  rw [Path.parts, Bytes.splitAt_of_not_mem h.2.1]
  simp [h.1]

theorem endsOpen_iff {path : Bytes} :
    endsOpen path = true ↔ ∃ start, path = start ++ [Byte.slash] := by
  rw [endsOpen, beq_iff_eq, List.getLast?_eq_some_iff]

theorem join_eq (path name : Bytes) :
    (∃ start, path = start ++ [Byte.slash] ∧ join path name = start ++ Byte.slash :: name) ∨
      join path name = path ++ Byte.slash :: name := by
  unfold join
  split_ifs with h
  · obtain ⟨start, rfl⟩ := endsOpen_iff.mp h
    exact .inl ⟨start, rfl, by simp⟩
  · exact .inr (by simp)

theorem parts_join (path : Bytes) {name : Bytes} (h : IsName name) :
    parts (join path name) = parts path ++ [name] := by
  rcases join_eq path name with ⟨start, rfl, hjoin⟩ | hjoin
  · have hnil : parts [] = [] := rfl
    rw [hjoin, parts_append_slash, parts_append_slash, h.parts, hnil, List.append_nil]
  · rw [hjoin, parts_append_slash, h.parts]

/-- Names that are added to a path are its last parts. -/
theorem parts_foldl_join (dir : Bytes) {names : List Bytes} (h : ∀ name ∈ names, IsName name) :
    parts (names.foldl join dir) = parts dir ++ names := by
  induction names generalizing dir with
  | nil => simp
  | cons name names ih =>
    obtain ⟨hname, hnames⟩ := List.forall_mem_cons.mp h
    rw [List.foldl_cons, ih _ hnames, parts_join dir hname, List.append_assoc]
    rfl

theorem isAbsolute_join {path : Bytes} (h : path ≠ []) (name : Bytes) :
    isAbsolute (join path name) = isAbsolute path := by
  unfold isAbsolute join
  split_ifs
  · rw [List.head?_append_of_ne_nil _ h]
  · rw [List.append_assoc, List.head?_append_of_ne_nil _ h]

theorem join_ne_nil (path name : Bytes) : join path name ≠ [] := by
  rcases join_eq path name with ⟨start, -, hjoin⟩ | hjoin <;> simp [hjoin]

theorem nul_not_mem_join {path name : Bytes} (h : Byte.nul ∉ path) (hname : IsName name) :
    Byte.nul ∉ join path name := by
  have hslash : Byte.nul ≠ Byte.slash := by decide
  unfold join
  split_ifs <;> simp [h, hslash, hname.2.2.1]

theorem endsOpen_join (path : Bytes) {name : Bytes} (h : IsName name) :
    endsOpen (join path name) = false := by
  have hlast : ∀ start : Bytes, (start ++ Byte.slash :: name).getLast? ≠ some Byte.slash := by
    intro start hlast
    rw [← List.singleton_append, ← List.append_assoc, List.getLast?_append_of_ne_nil _ h.1] at hlast
    exact h.2.1 (List.mem_of_getLast? hlast)
  rw [endsOpen, beq_eq_false_iff_ne]
  rcases join_eq path name with ⟨start, -, hjoin⟩ | hjoin
  · exact hjoin ▸ hlast start
  · exact hjoin ▸ hlast path

theorem isAbsolute_foldl_join {dir : Bytes} (h : dir ≠ []) (names : List Bytes) :
    isAbsolute (names.foldl join dir) = isAbsolute dir := by
  induction names generalizing dir with
  | nil => rfl
  | cons name names ih =>
    rw [List.foldl_cons, ih (join_ne_nil dir name), isAbsolute_join h]

theorem foldl_join_ne_nil {dir : Bytes} (h : dir ≠ []) (names : List Bytes) :
    names.foldl join dir ≠ [] := by
  induction names generalizing dir with
  | nil => exact h
  | cons name names ih =>
    exact ih (join_ne_nil dir name)

section FoldlJoin

variable {dir : Bytes} {names : List Bytes} (hnames : ∀ name ∈ names, IsName name)

include hnames

theorem nul_not_mem_foldl_join (h : Byte.nul ∉ dir) : Byte.nul ∉ names.foldl join dir := by
  induction names generalizing dir with
  | nil => exact h
  | cons name names ih =>
    obtain ⟨hname, hnames⟩ := List.forall_mem_cons.mp hnames
    exact ih hnames (nul_not_mem_join h hname)

theorem endsOpen_foldl_join (hnil : names ≠ []) : endsOpen (names.foldl join dir) = false := by
  obtain ⟨init, name, rfl⟩ := (List.eq_nil_or_concat names).resolve_left hnil
  rw [List.concat_eq_append, List.foldl_append]
  exact endsOpen_join _ (hnames name (by simp))

/-- A path below a folder is compared by the folder and the names that lead there from it. -/
theorem components_foldl_join (hdir : dir ≠ []) (hnil : names ≠ []) :
    components (names.foldl join dir) =
      (if isAbsolute dir then [Byte.slash] else []) :: (parts dir ++ names) := by
  rw [components, isAbsolute_foldl_join hdir, endsOpen_foldl_join hnames hnil,
    parts_foldl_join dir hnames, Bool.false_and, if_neg Bool.false_ne_true, List.append_nil]

end FoldlJoin

theorem steps?_of_nul_not_mem {path : Bytes} (h : Byte.nul ∉ path) (hnil : path ≠ []) :
    steps? path = some ((parts path).map stepOf ++ if endsOpen path then [.beFolder] else []) := by
  rw [steps?, Bytes.untilNul_of_not_mem h, if_neg hnil]

theorem ne_nil_of_steps? {path : Bytes} {steps : List PathStep} (h : steps? path = some steps) :
    path ≠ [] := by
  rintro rfl
  cases h

/-- The steps to a folder, but for a slash at the end, are followed by a step for each name. -/
theorem steps?_foldl_join {dir : Bytes} {steps : List PathStep} (hsteps : steps? dir = some steps)
    (hnul : Byte.nul ∉ dir) {names : List Bytes} (hnil : names ≠ [])
    (hnames : ∀ name ∈ names, IsName name) :
    ∃ lead, (steps = lead ∨ steps = lead ++ [.beFolder]) ∧
      steps? (names.foldl join dir) = some (lead ++ names.map .down) := by
  have hdir := ne_nil_of_steps? hsteps
  have hdown : names.map stepOf = names.map PathStep.down :=
    List.map_congr_left fun name hname => (hnames name hname).stepOf
  refine ⟨(parts dir).map stepOf, ?_, ?_⟩
  · rw [steps?_of_nul_not_mem hnul hdir, Option.some.injEq] at hsteps
    split_ifs at hsteps
    · exact .inr hsteps.symm
    · exact .inl (by simpa using hsteps.symm)
  · rw [steps?_of_nul_not_mem (nul_not_mem_foldl_join hnames hnul) (foldl_join_ne_nil hdir names),
      endsOpen_foldl_join hnames hnil, parts_foldl_join dir hnames, if_neg Bool.false_ne_true,
      List.append_nil, List.map_append, hdown]

end Path

/-! ## Following steps -/

namespace Tree

variable {t : Tree} {jump jump' : Place → Bytes → List PathStep → Found} {here : Place}

theorem isSearchable_iff {place : Place} : t.isSearchable place = true ↔
    ∃ access, t.find? place = some (.folder access) ∧ access.search = true := by
  unfold isSearchable
  rcases t.find? place with _ | (_ | _ | _ | _) <;> simp

theorem move_down (h : t.isSearchable here = true) {name : Bytes} {entry : Entry}
    (hentry : t.find? (here ++ [name]) = some entry) (hlink : ∀ target, entry ≠ .link target) :
    t.move here (.down name) = .entry (here ++ [name]) := by
  obtain ⟨access, hhere, hsearch⟩ := isSearchable_iff.mp h
  rw [move, hhere]
  cases entry with
  | link target => exact absurd rfl (hlink target)
  | _ => simp [hsearch, hentry]

theorem walk_down (h : t.isSearchable here = true) {name : Bytes} {entry : Entry}
    (hentry : t.find? (here ++ [name]) = some entry) (hlink : ∀ target, entry ≠ .link target)
    (rest : List PathStep) :
    t.walk jump here (.down name :: rest) = t.walk jump (here ++ [name]) rest := by
  rw [walk, move_down h hentry hlink]

/-- Steps lead to an entry, from which later steps go on; or to a link, with some steps after it; or
to no entry, whatever comes after them. -/
theorem walk_append (t : Tree) (jump : Place → Bytes → List PathStep → Found) (here : Place)
    (steps : List PathStep) :
    (∃ place, t.walk jump here steps = .entry place ∧
      ∀ rest, t.walk jump here (steps ++ rest) = t.walk jump place rest) ∨
    (∃ folder target left, ∀ rest,
      t.walk jump here (steps ++ rest) = jump folder target (left ++ rest)) ∨
    ∀ rest place, t.walk jump here (steps ++ rest) ≠ .entry place := by
  induction steps generalizing here with
  | nil => exact .inl ⟨here, rfl, fun _ => rfl⟩
  | cons step steps ih =>
    simp only [List.cons_append, walk]
    cases t.move here step with
    | entry place => exact ih place
    | link target => exact .inr (.inl ⟨here, target, steps, fun _ => rfl⟩)
    | vacant place => exact .inr (.inr fun rest place => by dsimp only; split_ifs <;> simp)
    | missing => exact .inr (.inr fun _ _ => by simp)
    | denied => exact .inr (.inr fun _ _ => by simp)

/-- If links are followed alike, except where they run out, so are paths. -/
theorem walk_congr {steps : List PathStep}
    (h : ∀ folder target rest, jump folder target rest ≠ .looped →
      jump' folder target rest = jump folder target rest) :
    t.walk jump here steps ≠ .looped → t.walk jump' here steps = t.walk jump here steps := by
  induction steps generalizing here with
  | nil => exact fun _ => rfl
  | cons step steps ih =>
    rw [walk, walk]
    cases t.move here step with
    | entry place => exact ih
    | link target => exact h here target steps
    | _ => exact fun _ => rfl

/-- What becomes of a link. -/
def followLink (t : Tree) : (links : Nat) → Place → Bytes → List PathStep → Found
  | 0, _, _, _ => .looped
  | links + 1, here, target, rest =>
    match Path.steps? target with
    | none => .missing
    | some steps => t.follow links (origin here target) (steps ++ rest)

theorem follow_eq_walk (t : Tree) (links : Nat) : t.follow links = t.walk (t.followLink links) := by
  cases links <;> rfl

/-- More steps are followed from where the first ones lead, with what links are left; if these lead
to no entry, no longer path does. -/
theorem follow_append (t : Tree) (links : Nat) (here : Place) (steps : List PathStep) :
    (∃ place left, left ≤ links ∧ t.follow links here steps = .entry place ∧
      ∀ rest, t.follow links here (steps ++ rest) = t.follow left place rest) ∨
    ∀ rest place, t.follow links here (steps ++ rest) ≠ .entry place := by
  induction links generalizing here steps with
  | zero =>
    rw [follow_eq_walk]
    rcases t.walk_append (t.followLink 0) here steps with
      ⟨place, hplace, hrest⟩ | ⟨folder, target, left, hlink⟩ | hnone
    · exact .inl ⟨place, 0, Nat.le_refl 0, hplace, fun rest => by rw [hrest, follow_eq_walk]⟩
    · exact .inr fun rest place => by simp [hlink, followLink]
    · exact .inr hnone
  | succ links ih =>
    rw [follow_eq_walk]
    rcases t.walk_append (t.followLink (links + 1)) here steps with
      ⟨place, hplace, hrest⟩ | ⟨folder, target, more, hlink⟩ | hnone
    · exact .inl ⟨place, _, Nat.le_refl _, hplace, fun rest => by rw [hrest, follow_eq_walk]⟩
    · -- The steps of the target come before all others, so the longer path is one for `ih` again.
      have hsteps := hlink []
      rw [List.append_nil, List.append_nil] at hsteps
      simp only [hlink, hsteps, followLink]
      cases Path.steps? target with
      | none => exact .inr fun rest place => by simp
      | some steps =>
        simp only [← List.append_assoc]
        refine (ih (origin folder target) (steps ++ more)).imp_left ?_
        rintro ⟨place, left, hleft, hplace, hrest⟩
        exact ⟨place, left, Nat.le_succ_of_le hleft, hplace, hrest⟩
    · exact .inr hnone

/-- Links that are left over make no difference. -/
theorem follow_of_le {links links' : Nat} {steps : List PathStep}
    (h : t.follow links here steps ≠ .looped) (hle : links ≤ links') :
    t.follow links' here steps = t.follow links here steps := by
  induction links generalizing links' here steps with
  | zero =>
    rw [follow_eq_walk] at h
    rw [follow_eq_walk, follow_eq_walk]
    exact walk_congr (fun folder target rest hlooped => absurd rfl hlooped) h
  | succ links ih =>
    obtain ⟨links', rfl⟩ := Nat.exists_eq_succ_of_ne_zero (Nat.ne_zero_of_lt hle)
    rw [follow_eq_walk] at h
    rw [follow_eq_walk, follow_eq_walk]
    refine walk_congr (fun folder target rest hlooped => ?_) h
    rw [followLink] at hlooped ⊢
    rw [followLink]
    cases hsteps : Path.steps? target with
    | none => rfl
    | some steps =>
      rw [hsteps] at hlooped
      exact ih hlooped (Nat.le_of_succ_le_succ hle)

theorem eq_of_follow_beFolder {links : Nat} {place top : Place}
    (h : t.follow links place [.beFolder] = .entry top) : place = top := by
  rw [follow_eq_walk, walk, move] at h
  cases hplace : t.find? place with
  | none => simp [hplace] at h
  | some entry => cases entry <;> simp_all [walk]

/-! ## Paths below a folder -/

/-- The folder at a place can be listed: it can be read, and paths lead there from the folder that
it is in. -/
structure IsListable (t : Tree) (place : Place) : Prop where
  isRead : ∃ access, t.find? place = some (.folder access) ∧ access.read = true
  isSearched : t.isSearchable place.dropLast = true

/-- Names of folders that can be listed are followed one by one. -/
theorem follow_names {links : Nat} {top names : Place}
    (h : ∀ upper, upper <+: names → upper ≠ [] → t.IsListable (top ++ upper))
    (rest : List PathStep) :
    t.follow links top (names.map .down ++ rest) = t.follow links (top ++ names) rest := by
  induction names generalizing top with
  | nil => rw [List.append_nil]; rfl
  | cons name names ih =>
    obtain ⟨⟨access, hfolder, -⟩, hsearched⟩ := h [name] (by simp) (by simp)
    rw [List.dropLast_concat] at hsearched
    rw [List.map_cons, List.cons_append, follow_eq_walk, walk_down hsearched hfolder (by simp),
      ← follow_eq_walk, ih ?_, List.append_assoc]
    · rfl
    · intro upper hupper _
      have hlistable := h (name :: upper) (List.cons_prefix_cons.mpr ⟨rfl, hupper⟩) (by simp)
      rwa [List.append_assoc]

/-- A path below a folder leads where its last name leads from the folder that name is in, as long
as the folders on the way can be listed, with what links the path of the upper folder leaves. -/
theorem exists_resolve_below {dir : Bytes} {top names : Place} {name : Bytes}
    (hdir : t.resolve dir = .entry top) (hnul : Byte.nul ∉ dir)
    (hnames : ∀ n ∈ names ++ [name], Path.IsName n)
    (hlistable : ∀ upper, upper <+: names → upper ≠ [] → t.IsListable (top ++ upper)) :
    ∃ left ≤ maxLinks, t.resolve ((names ++ [name]).foldl Path.join dir) =
      t.follow left (top ++ names) [.down name] := by
  unfold resolve at hdir
  cases hsteps : Path.steps? dir with
  | none => simp [hsteps] at hdir
  | some steps =>
    rw [hsteps] at hdir
    dsimp only at hdir
    obtain ⟨lead, hlead, hpath⟩ := Path.steps?_foldl_join hsteps hnul (by simp) hnames
    have horigin : origin t.home ((names ++ [name]).foldl Path.join dir) = origin t.home dir := by
      rw [origin, origin, Path.isAbsolute_foldl_join (Path.ne_nil_of_steps? hsteps)]
    rcases t.follow_append maxLinks (origin t.home dir) lead with
      ⟨place, left, hleft, hplace, hrest⟩ | hnone
    · -- A slash at the end of `dir` only asks for the folder that the steps before it lead to.
      have hplace : place = top := by
        rcases hlead with rfl | rfl
        · exact Found.entry.inj (hplace.symm.trans hdir)
        · rw [hrest] at hdir
          exact eq_of_follow_beFolder hdir
      subst hplace
      refine ⟨left, hleft, ?_⟩
      rw [resolve, hpath]
      dsimp only
      rw [horigin, hrest, List.map_append, follow_names hlistable]
      rfl
    · rcases hlead with rfl | rfl
      · exact absurd hdir (by simpa using hnone [] top)
      · exact absurd hdir (hnone _ top)

end Tree

end TextDomain
