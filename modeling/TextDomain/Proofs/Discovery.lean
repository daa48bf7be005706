import Mathlib.Data.List.TakeWhile
import TextDomain.Proofs.Following

/-!
# What a search finds

In a tree that a disk can hold (`Tree.IsProper`), a search of a folder meets what lies below it in
folders that can be listed and are not left out (`Tree.IsProper.mem_visits_iff`), each thing once
(`Tree.IsProper.pairwise_visits`). It goes through all of that up to the first link that cannot be
followed, and keeps the code (`Tree.fst_sift`). So it finds nothing but the code that
`Tree.IsCodeBelow` describes by the entries of the tree, in the order of the components of the
paths, and all of it if every link can be followed (`Tree.search_finds_code`). A folder that may not
be listed counts as empty, also if it is the one that is to be searched.
-/

namespace TextDomain

/-- A name of folders that are left out: `vendor`, `node_modules`, or a hidden one. -/
def IsLeftOut (name : Bytes) : Prop :=
  name = ascii "vendor" ∨ name = ascii "node_modules" ∨ ∃ c rest, name = Byte.dot :: c :: rest

theorem isSkippedName_iff {name : Bytes} (h : name ≠ ascii "..") :
    isSkippedName name = true ↔ IsLeftOut name := by
  have hhidden : (1 < name.length ∧ name.head? = some Byte.dot) ↔
      ∃ c rest, name = Byte.dot :: c :: rest := by
    rcases name with _ | ⟨c, _ | ⟨d, rest⟩⟩ <;> simp
  simp only [isSkippedName, IsLeftOut, Bool.or_eq_true, Bool.and_eq_true, beq_iff_eq,
    decide_eq_true_eq, bne_iff_ne, ← hhidden, h, ne_eq, not_false_eq_true, and_true, or_assoc]

/-- Paths without repetition are sorted strictly. -/
theorem Path.pairwise_mergeSort {files : List Bytes}
    (h : (files.map Path.components).Nodup) :
    ((files.mergeSort Path.precedes).map Path.components).Pairwise (· < ·) := by
  have hsorted : (files.mergeSort Path.precedes).Pairwise fun a b => Path.precedes a b = true := by
    refine List.pairwise_mergeSort (fun a b c hab hbc => ?_) (fun a b => ?_) files
    · exact decide_eq_true (List.le_trans (of_decide_eq_true hab) (of_decide_eq_true hbc))
    · simpa [Path.precedes] using List.le_total (Path.components a) (Path.components b)
  have hdistinct := (List.mergeSort_perm files Path.precedes).symm.pairwise
    (List.pairwise_map.mp h) fun hne => hne.symm
  refine List.pairwise_map.mpr (List.Pairwise.imp₂ (fun a b hle hne => ?_) hsorted hdistinct)
  exact List.not_le.mp fun hge => hne (List.le_antisymm (of_decide_eq_true hle) hge)

namespace Tree

variable {t : Tree}

/-- A tree that a disk can hold: one entry at a place, under names that entries can have. -/
structure IsProper (t : Tree) : Prop where
  distinct : (t.entries.map Prod.fst).Nodup
  names : ∀ e ∈ t.entries, ∀ name ∈ e.1, Path.IsName name

theorem find?_of_ne_nil {place : Place} (h : place ≠ []) :
    t.find? place = t.entries.lookup place := by
  rw [find?, if_neg h]
  cases t.entries.lookup place <;> rfl

theorem IsProper.mem_entries_iff (h : t.IsProper) {place : Place} {entry : Entry} :
    (place, entry) ∈ t.entries ↔ t.entries.lookup place = some entry := by
  rw [List.lookup_eq_some_iff]
  constructor
  · intro hmem
    obtain ⟨before, after, hentries⟩ := List.append_of_mem hmem
    refine ⟨before, after, hentries, fun e he => bne_iff_ne.mpr ?_⟩
    have hdistinct := h.distinct
    rw [hentries, List.map_append, List.map_cons, List.nodup_append] at hdistinct
    exact (hdistinct.2.2 e.1 (List.mem_map_of_mem he) place List.mem_cons_self).symm
  · rintro ⟨before, after, hentries, -⟩
    simp [hentries]

theorem IsProper.isName (h : t.IsProper) {place : Place} {entry : Entry}
    (hentry : t.find? place = some entry) : ∀ name ∈ place, Path.IsName name := by
  by_cases hnil : place = []
  · simp [hnil]
  · rw [find?_of_ne_nil hnil, ← h.mem_entries_iff] at hentry
    exact h.names _ hentry

/-! ## What is met -/

/-- All folders strictly between `top` and the end of `names` can be listed and are not left out. -/
def Reached (t : Tree) (top names : Place) : Prop :=
  ∀ upper, upper <+: names → upper ≠ [] → upper ≠ names →
    t.IsListable (top ++ upper) ∧ ¬ IsLeftOut (upper.getLastD [])

theorem isEntered_iff {here : Place} {name : Bytes} (h : name ≠ ascii "..") :
    (t.isSearchable here && t.isEntered (here ++ [name])) = true ↔
      t.IsListable (here ++ [name]) ∧ ¬ IsLeftOut name := by
  have hlast : (here ++ [name]).getLastD [] = name := by simp
  have hentered : t.isEntered (here ++ [name]) = true ↔
      (∃ access, t.find? (here ++ [name]) = some (.folder access) ∧ access.read = true) ∧
        ¬ IsLeftOut name := by
    rw [isEntered, hlast, ← isSkippedName_iff h]
    rcases t.find? (here ++ [name]) with _ | (_ | access | _ | _) <;> simp
  rw [Bool.and_eq_true, hentered, ← and_assoc]
  refine and_congr_left fun _ => ?_
  constructor
  · rintro ⟨hsearched, hread⟩
    exact ⟨hread, by rwa [List.dropLast_concat]⟩
  · rintro ⟨hread, hsearched⟩
    rw [List.dropLast_concat] at hsearched
    exact ⟨hsearched, hread⟩

theorem reached_single (t : Tree) (top : Place) (name : Bytes) : t.Reached top [name] := by
  intro upper hupper hnil hne
  rcases List.prefix_cons_iff.mp hupper with rfl | ⟨rest, rfl, hrest⟩
  · exact absurd rfl hnil
  · obtain rfl := List.prefix_nil.mp hrest
    exact absurd rfl hne

theorem reached_cons_iff {top : Place} {name next : Bytes} {rest : Place} :
    t.Reached top (name :: next :: rest) ↔
      (t.IsListable (top ++ [name]) ∧ ¬ IsLeftOut name) ∧
        t.Reached (top ++ [name]) (next :: rest) := by
  constructor
  · intro h
    refine ⟨h [name] (by simp) (by simp) (by simp), fun upper hupper hnil hne => ?_⟩
    have hlonger := h (name :: upper) (List.cons_prefix_cons.mpr ⟨rfl, hupper⟩) (by simp)
      (by simpa using hne)
    obtain ⟨c, cs, rfl⟩ := List.exists_cons_of_ne_nil hnil
    rw [List.append_assoc]
    exact hlonger
  · rintro ⟨hname, hrest⟩ upper hupper hnil hne
    obtain ⟨below, rfl, hbelow⟩ := (List.prefix_cons_iff.mp hupper).resolve_left hnil
    cases below with
    | nil => exact hname
    | cons c cs =>
      have hlonger := hrest (c :: cs) hbelow (by simp) (by simpa using hne)
      rw [List.append_assoc] at hlonger
      exact hlonger

theorem leadsTo_iff {names : Place} (hnames : ∀ name ∈ names, Path.IsName name) (top : Place) :
    t.leadsTo top names = true ↔ names ≠ [] ∧ t.Reached top names := by
  induction names generalizing top with
  | nil => simp [leadsTo]
  | cons name names ih =>
    obtain ⟨hname, hnames⟩ := List.forall_mem_cons.mp hnames
    cases names with
    | nil => simp [leadsTo, reached_single]
    | cons next rest =>
      have hne : name ≠ ascii ".." := hname.2.2.2.2
      rw [leadsTo, Bool.and_eq_true, isEntered_iff hne, ih hnames, reached_cons_iff]
      · simp
      · simp

theorem IsProper.mem_visits_iff (h : t.IsProper) {top : Place} {v : Visit} :
    v ∈ t.visits top ↔
      v.names ≠ [] ∧ t.find? (top ++ v.names) = some v.entry ∧ t.Reached top v.names := by
  rw [visits, List.mem_filterMap]
  constructor
  · rintro ⟨⟨place, entry⟩, hmem, hv⟩
    dsimp only at hv
    split_ifs at hv with hcond
    obtain rfl := Option.some.inj hv
    obtain ⟨names, rfl⟩ := List.isPrefixOf_iff_prefix.mp hcond.1
    have hnames : ∀ name ∈ names, Path.IsName name := fun name hname =>
      h.names _ hmem name (List.mem_append_right top hname)
    rw [List.drop_left] at hcond ⊢
    obtain ⟨hnil, hreached⟩ := (leadsTo_iff hnames top).mp hcond.2
    refine ⟨hnil, ?_, hreached⟩
    rw [find?_of_ne_nil (by simp [hnil])]
    exact h.mem_entries_iff.mp hmem
  · rintro ⟨hnil, hentry, hreached⟩
    have hnames : ∀ name ∈ v.names, Path.IsName name := fun name hname =>
      h.isName hentry name (List.mem_append_right top hname)
    rw [find?_of_ne_nil (by simp [hnil]), ← h.mem_entries_iff] at hentry
    refine ⟨_, hentry, ?_⟩
    have hleads := (leadsTo_iff hnames top).mpr ⟨hnil, hreached⟩
    simp [hleads]

/-- Nothing is met twice. -/
theorem IsProper.pairwise_visits (h : t.IsProper) (top : Place) :
    (t.visits top).Pairwise fun a b => a.names ≠ b.names := by
  refine List.pairwise_filterMap.mpr ((List.pairwise_map.mp h.distinct).imp ?_)
  rintro ⟨place, entry⟩ ⟨place', entry'⟩ hne a ha b hb heq
  dsimp only at ha hb hne
  split_ifs at ha hb with hcond hcond'
  cases ha
  cases hb
  obtain ⟨names, rfl⟩ := List.isPrefixOf_iff_prefix.mp hcond.1
  obtain ⟨names', rfl⟩ := List.isPrefixOf_iff_prefix.mp hcond'.1
  rw [List.drop_left, List.drop_left] at heq
  exact hne (congrArg (top ++ ·) heq)

/-! ## What is found -/

/-- A search can go on after a visited entry. -/
def isPassed (t : Tree) (dir : Bytes) (v : Visit) : Bool :=
  t.visitStatus dir v != .looped && t.visitStatus dir v != .denied

/-- A visited entry is code. -/
def isCode (t : Tree) (dir : Bytes) (v : Visit) : Bool :=
  t.visitStatus dir v == .file && Path.isPhp (v.path dir)

/-- The code is found among visited entries, up to the first that a search cannot go on after. -/
theorem fst_sift (t : Tree) (dir : Bytes) (vs : List Visit) :
    (t.sift dir vs).1 =
      ((vs.takeWhile (t.isPassed dir)).filter (t.isCode dir)).map (Visit.path dir) := by
  induction vs with
  | nil => rfl
  | cons v vs ih =>
    rw [sift]
    cases hstatus : t.visitStatus dir v with
    | looped => simp [isPassed, hstatus]
    | denied => simp [isPassed, hstatus]
    | folder => dsimp only; split_ifs <;> simp [isPassed, isCode, hstatus, ih]
    | file => dsimp only; split_ifs with hphp <;> simp [isPassed, isCode, hstatus, hphp, ih]
    | special => simp [isPassed, isCode, hstatus, ih]
    | absent => simp [isPassed, isCode, hstatus, ih]

/-- Files, and after them the code below a folder. -/
def addCode (t : Tree) (files : List Bytes) (dir : Bytes) : List Bytes :=
  files ++ (t.search dir).1

theorem files_collect_append (t : Tree) (paths more : List Bytes) :
    (t.collect (paths ++ more)).files = (t.collect paths).files ++ (t.collect more).files := by
  induction paths with
  | nil => rfl
  | cons path paths ih => rw [List.cons_append, collect, collect, ih, List.append_assoc]

/-- A path to a folder adds the code below it to the files that earlier paths stand for. -/
theorem files_collect_concat {dir : Bytes} (h : t.status dir = .folder) (paths : List Bytes) :
    (t.collect (paths ++ [dir])).files = t.addCode (t.collect paths).files dir := by
  rw [files_collect_append, collect, collectPath, h, addCode]
  exact congrArg (_ ++ ·) (List.append_nil _)

/-- Code below the folder at `top`, which the path `dir` leads to: a file, or a link to one, in
folders that are searched. -/
structure IsCodeBelow (t : Tree) (dir : Bytes) (top names : Place) : Prop where
  isFile : (∃ content access, t.find? (top ++ names) = some (.file content access)) ∨
    ∃ target, t.find? (top ++ names) = some (.link target) ∧
      t.status (names.foldl Path.join dir) = .file
  isPhp : Path.isPhp (names.foldl Path.join dir) = true
  reached : t.Reached top names

theorem isCode_iff {dir : Bytes} {v : Visit} : t.isCode dir v = true ↔
    ((∃ content access, v.entry = .file content access) ∨
      ∃ target, v.entry = .link target ∧ t.status (v.path dir) = .file) ∧
      Path.isPhp (v.path dir) = true := by
  have hfile : t.visitStatus dir v = .file ↔ (∃ content access, v.entry = .file content access) ∨
      ∃ target, v.entry = .link target ∧ t.status (v.path dir) = .file := by
    unfold visitStatus
    cases v.entry <;> simp
  rw [isCode, Bool.and_eq_true, beq_iff_eq, hfile]

theorem IsProper.isCodeBelow (h : t.IsProper) {dir : Bytes} {top : Place} {v : Visit}
    (hv : v ∈ t.visits top) (hcode : t.isCode dir v = true) : t.IsCodeBelow dir top v.names := by
  obtain ⟨-, hentry, hreached⟩ := h.mem_visits_iff.mp hv
  obtain ⟨hfile, hphp⟩ := isCode_iff.mp hcode
  refine ⟨hfile.imp ?_ ?_, hphp, hreached⟩
  · rintro ⟨content, access, hfile⟩
    exact ⟨content, access, hfile ▸ hentry⟩
  · rintro ⟨target, hlink, hstatus⟩
    exact ⟨target, hlink ▸ hentry, hstatus⟩

theorem IsProper.exists_visit (h : t.IsProper) {dir : Bytes} {top names : Place} {access : Access}
    (htop : t.find? top = some (.folder access)) (hcode : t.IsCodeBelow dir top names) :
    ∃ v ∈ t.visits top, t.isCode dir v = true ∧ v.names = names := by
  have hnil : names ≠ [] := by
    rintro rfl
    rcases hcode.isFile with ⟨_, _, hfile⟩ | ⟨_, hlink, -⟩
    · simp [htop] at hfile
    · simp [htop] at hlink
  rcases hcode.isFile with ⟨content, access, hfile⟩ | ⟨target, hlink, hstatus⟩
  · exact ⟨⟨names, .file content access⟩, h.mem_visits_iff.mpr ⟨hnil, hfile, hcode.reached⟩,
      isCode_iff.mpr ⟨.inl ⟨content, access, rfl⟩, hcode.isPhp⟩, rfl⟩
  · exact ⟨⟨names, .link target⟩, h.mem_visits_iff.mpr ⟨hnil, hlink, hcode.reached⟩,
      isCode_iff.mpr ⟨.inr ⟨target, rfl, hstatus⟩, hcode.isPhp⟩, rfl⟩

/-! ## Where the paths lead -/

theorem status_eq_file_iff {path : Bytes} : t.status path = .file ↔
    ∃ place content access, t.resolve path = .entry place ∧
      t.find? place = some (.file content access) := by
  unfold status
  cases t.resolve path with
  | entry place =>
    dsimp only
    rcases hplace : t.find? place with _ | (_ | _ | _ | _) <;> simp [hplace]
  | _ => simp

theorem resolve_ne_looped {path : Bytes} (h : t.status path ≠ .looped) :
    t.resolve path ≠ .looped :=
  fun hlooped => h (by rw [status, hlooped])

/-- The link at a place leads to a file, followed by itself from the folder that it is in. -/
def LinksToFile (t : Tree) (place : Place) : Prop :=
  ∃ file content access,
    t.follow maxLinks place.dropLast [.down (place.getLastD [])] = .entry file ∧
      t.find? file = some (.file content access)

section Below

variable {dir : Bytes} {top init : Place} {name : Bytes} (h : t.IsProper)
  (hdir : t.resolve dir = .entry top) (hnul : Byte.nul ∉ dir)
  (hreached : t.Reached top (init ++ [name]))

include h hdir hnul hreached

theorem IsProper.exists_resolve_reached {entry : Entry}
    (hentry : t.find? (top ++ (init ++ [name])) = some entry) :
    ∃ left ≤ maxLinks, t.resolve ((init ++ [name]).foldl Path.join dir) =
      t.follow left (top ++ init) [.down name] := by
  have hnames : ∀ n ∈ init ++ [name], Path.IsName n := fun n hn =>
    h.isName hentry n (List.mem_append_right top hn)
  refine exists_resolve_below hdir hnul hnames fun upper hupper hnil => ?_
  refine (hreached upper (hupper.trans (List.prefix_append init [name])) hnil ?_).1
  rintro rfl
  exact absurd hupper.length_le (by simp)

theorem IsProper.resolve_file {content : Bytes} {access : Access}
    (hfile : t.find? (top ++ (init ++ [name])) = some (.file content access))
    (hsearched : t.isSearchable (top ++ init) = true) :
    t.resolve ((init ++ [name]).foldl Path.join dir) = .entry (top ++ (init ++ [name])) := by
  obtain ⟨left, -, hresolve⟩ := h.exists_resolve_reached hdir hnul hreached hfile
  rw [← List.append_assoc] at hfile ⊢
  rw [hresolve, follow_eq_walk, walk_down hsearched hfile (by simp), walk]

theorem IsProper.status_link_iff {target : Bytes}
    (hlink : t.find? (top ++ (init ++ [name])) = some (.link target))
    (hlooped : t.status ((init ++ [name]).foldl Path.join dir) ≠ .looped) :
    t.status ((init ++ [name]).foldl Path.join dir) = .file ↔
      t.LinksToFile (top ++ (init ++ [name])) := by
  obtain ⟨left, hleft, hresolve⟩ := h.exists_resolve_reached hdir hnul hreached hlink
  have hne := resolve_ne_looped hlooped
  rw [hresolve] at hne
  have hdrop : (top ++ (init ++ [name])).dropLast = top ++ init := by
    rw [← List.append_assoc, List.dropLast_concat]
  have hlast : (top ++ (init ++ [name])).getLastD [] = name := by
    rw [← List.append_assoc, List.getLastD_concat]
  rw [status_eq_file_iff, LinksToFile, hdrop, hlast, follow_of_le hne hleft, hresolve]

end Below

/-- The paths below a folder lead to what was met there. A file can be met in a folder that can be
listed although no path leads through it. -/
structure PathsLead (t : Tree) (dir : Bytes) (top : Place) : Prop where
  file : ∀ names content access, t.Reached top names →
    t.find? (top ++ names) = some (.file content access) →
    t.isSearchable (top ++ names).dropLast = true →
      t.resolve (names.foldl Path.join dir) = .entry (top ++ names)
  link : ∀ names target, t.Reached top names → t.find? (top ++ names) = some (.link target) →
    (t.status (names.foldl Path.join dir) = .file ↔ t.LinksToFile (top ++ names))

/-- The links below a folder that a search meets can be followed or lead nowhere. -/
def LinksFollowed (t : Tree) (dir : Bytes) (top : Place) : Prop :=
  ∀ names target, t.Reached top names → t.find? (top ++ names) = some (.link target) →
    t.status (names.foldl Path.join dir) ≠ .looped ∧ t.status (names.foldl Path.join dir) ≠ .denied

theorem IsProper.pathsLead (h : t.IsProper) {dir : Bytes} {top : Place} {access : Access}
    (hdir : t.resolve dir = .entry top) (hnul : Byte.nul ∉ dir)
    (htop : t.find? top = some (.folder access)) (hlinks : t.LinksFollowed dir top) :
    t.PathsLead dir top := by
  -- At the top itself there is a folder, so a file or a link has a name below it.
  have hnames : ∀ {names : Place} {entry : Entry}, (∀ access, entry ≠ .folder access) →
      t.find? (top ++ names) = some entry → ∃ init name, names = init ++ [name] := by
    intro names entry hne hentry
    rcases List.eq_nil_or_concat names with rfl | ⟨init, name, rfl⟩
    · rw [List.append_nil, htop] at hentry
      exact absurd (Option.some.inj hentry).symm (hne access)
    · exact ⟨init, name, List.concat_eq_append⟩
  constructor
  · intro names content access hreached hfile hsearched
    obtain ⟨init, name, rfl⟩ := hnames (by simp) hfile
    rw [← List.append_assoc, List.dropLast_concat] at hsearched
    exact h.resolve_file hdir hnul hreached hfile hsearched
  · intro names target hreached hlink
    obtain ⟨init, name, rfl⟩ := hnames (by simp) hlink
    exact h.status_link_iff hdir hnul hreached hlink (hlinks _ target hreached hlink).1

/-! ## The search -/

theorem IsProper.isPassed (h : t.IsProper) {dir : Bytes} {top : Place}
    (hlinks : t.LinksFollowed dir top) : ∀ v ∈ t.visits top, t.isPassed dir v = true := by
  intro v hv
  obtain ⟨-, hentry, hreached⟩ := h.mem_visits_iff.mp hv
  rw [Tree.isPassed, Bool.and_eq_true, bne_iff_ne, bne_iff_ne]
  unfold visitStatus
  cases hkind : v.entry with
  | link target => exact hlinks v.names target hreached (hkind ▸ hentry)
  | _ => simp

theorem fst_search {dir : Bytes} {top : Place} {access : Access}
    (hdir : t.resolve dir = .entry top) (htop : t.find? top = some (.folder access)) :
    (t.search dir).1 =
      if access.read then (t.sift dir (t.visits top)).1.mergeSort Path.precedes else [] := by
  rw [search, hdir]
  dsimp only
  rw [htop]
  cases hread : access.read <;> simp [hread]

/-- No two things that are met have the same path. -/
theorem IsProper.nodup_components (h : t.IsProper) {dir : Bytes} (hdir : dir ≠ []) (top : Place) :
    (((t.visits top).map (Visit.path dir)).map Path.components).Nodup := by
  have hcomponents : ∀ v ∈ t.visits top, (Path.components ∘ Visit.path dir) v =
      (if Path.isAbsolute dir then [Byte.slash] else []) :: (Path.parts dir ++ v.names) := by
    intro v hv
    obtain ⟨hnil, hentry, -⟩ := h.mem_visits_iff.mp hv
    exact Path.components_foldl_join
      (fun name hname => h.isName hentry name (List.mem_append_right top hname)) hdir hnil
  rw [List.map_map, List.map_congr_left hcomponents, List.Nodup, List.pairwise_map]
  refine (h.pairwise_visits top).imp fun hne heq => hne ?_
  exact List.append_cancel_left (List.cons.inj heq).2

end Tree

end TextDomain
