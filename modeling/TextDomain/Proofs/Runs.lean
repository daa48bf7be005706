import TextDomain.Check
import TextDomain.Command
import TextDomain.Proofs.Logging
import TextDomain.Proofs.Outcome

/-!
# What a run does to the disk

A run checks one file after the other. `Session.Checked` says what the session is like when the
files of some paths have been checked, in terms of the session at the start: a place that some path
leads to has been fixed, once however many paths lead there, and all others are as they were. One
more file keeps this up (`Session.checked_checkFile`), and so does a whole run
(`Session.checked_checkFiles`). Log files are left out of it, and files that there is no room for.
-/

namespace TextDomain

theorem Tree.entryAfter_nil (t : Tree) (r : Renaming) (fix : Bool) (place : Place) :
    t.entryAfter r fix [] place = t.find? place := by
  simp [entryAfter]

/-- Checking some files and then others is checking all of them. -/
theorem Tree.entryAfter_append {t t' : Tree} {r : Renaming} {fix : Bool} {paths : List Bytes}
    {place : Place} (houtline : t'.outline = t.outline)
    (hfind : t'.find? place = t.entryAfter r fix paths place) (more : List Bytes) :
    t'.entryAfter r fix more place = t.entryAfter r fix (paths ++ more) place := by
  cases fix with
  | false => exact hfind
  | true =>
    have hfixed : Entry.fixed r ∘ Entry.fixed r = Entry.fixed r := funext (Entry.fixed_fixed r)
    have hsplit : (∃ path ∈ paths ++ more, t.resolve path = .entry place) ↔
        (∃ path ∈ paths, t.resolve path = .entry place) ∨
          ∃ path ∈ more, t.resolve path = .entry place := by
      simp only [List.mem_append, or_and_right, exists_or]
    simp only [entryAfter, resolve_congr houtline, true_and, hsplit] at hfind ⊢
    rw [hfind]
    by_cases hpaths : ∃ path ∈ paths, t.resolve path = .entry place
    · -- Fixing the entry once more, if later paths lead there too, changes nothing.
      rw [if_pos hpaths, if_pos (Or.inl hpaths), Option.map_map, hfixed, ite_self]
    · simp only [hpaths, if_false, false_or]

namespace Session

/-- The second session is the first once the files of some paths have been checked, up to what has
been logged and written out. -/
structure Checked (r : Renaming) (fix : Bool) (paths : List Bytes) (s s' : Session) : Prop where
  logPlaces_eq : s'.logPlaces = s.logPlaces
  outline_eq : s'.world.tree.outline = s.world.tree.outline
  find?_eq : ∀ place ∉ s.logPlaces,
    (fix = true → (∃ path ∈ paths, s.world.tree.resolve path = .entry place) →
      s.world.tree.Fits r place) →
    s'.world.tree.find? place = s.world.tree.entryAfter r fix paths place

section Checked

variable {r : Renaming} {fix : Bool} {paths : List Bytes} {s s' s'' : Session}

theorem Undisturbed.checked (h : Undisturbed s s') (r : Renaming) (fix : Bool) :
    Checked r fix [] s s' where
  logPlaces_eq := h.logPlaces_eq
  outline_eq := h.world.outline_eq
  find?_eq place hplace _ := by rw [h.world.find?_eq place hplace, Tree.entryAfter_nil]

theorem Checked.undisturbed (h : Checked r fix paths s s') (h' : Undisturbed s' s'') :
    Checked r fix paths s s'' where
  logPlaces_eq := h'.logPlaces_eq.trans h.logPlaces_eq
  outline_eq := h'.world.outline_eq.trans h.outline_eq
  find?_eq place hplace hfits := by
    rw [h'.world.find?_eq place (h.logPlaces_eq.symm ▸ hplace), h.find?_eq place hplace hfits]

theorem Checked.print (h : Checked r fix paths s s') (text : Bytes) :
    Checked r fix paths s (s'.print text) :=
  ⟨h.logPlaces_eq, h.outline_eq, h.find?_eq⟩

/-- The tree that checking one more file leaves. -/
theorem Checked.lintOnDisk (h : Checked r fix paths s s') (path : Bytes) :
    let tree := (r.lintOnDisk fix s'.world.tree path).tree
    Checked r fix (paths ++ [path]) s { s' with world := { s'.world with tree := tree } } := by
  obtain ⟨houtline, hfind⟩ := r.tree_lintOnDisk fix s'.world.tree path
  refine ⟨h.logPlaces_eq, houtline.trans h.outline_eq, fun place hplace hfits => ?_⟩
  have hbefore := h.find?_eq place hplace fun hfix ⟨path', hpath', hreached⟩ =>
    hfits hfix ⟨path', List.mem_append_left _ hpath', hreached⟩
  refine (hfind place fun hfix hreached => ?_).trans
    (Tree.entryAfter_append h.outline_eq hbefore [path])
  rw [Tree.resolve_congr h.outline_eq] at hreached
  exact (hfits hfix ⟨path, by simp, hreached⟩).after h.outline_eq hbefore

variable {o : Options} {colors : Bool}

/-- Checking a file logs, changes the tree, logs again, and writes out what the report says. -/
theorem checkFile_spec (s : Session) (o : Options) (fix colors : Bool) (path : Bytes) :
    ∃ s₁ s₂, Undisturbed s s₁ ∧
      let outcome := o.toRenaming.lintOnDisk fix s₁.world.tree path
      Undisturbed { s₁ with world := { s₁.world with tree := outcome.tree } } s₂ ∧
      (s.checkFile o fix colors path).2 = outcome.result ∧
      (s.checkFile o fix colors path).1 = match outcome.result with
        | .error _ => s₂
        | .ok report => s₂.print
          (if fix then report.outcome o.format colors else report.diagnostics o.format colors) := by
  let s₁ := s.log (.of .debug "lint" (ascii "Checking: " ++ path))
  let outcome := o.toRenaming.lintOnDisk fix s₁.world.tree path
  let s₂ := { s₁ with world := { s₁.world with tree := outcome.tree } }
  have hlog := s₂.undisturbed_logAll outcome.events
  cases hresult : outcome.result with
  | error e =>
    have herror := undisturbed_log (s₂.logAll outcome.events) (.of .error "lint" e.message)
    refine ⟨s₁, _, s.undisturbed_log _, hlog.trans herror, ?_⟩
    simp only [checkFile, s₁, outcome, s₂, hresult, and_self]
  | ok report =>
    refine ⟨s₁, _, s.undisturbed_log _, hlog, ?_⟩
    simp only [checkFile, s₁, outcome, s₂, hresult, and_self]

/-- One more file. -/
theorem checked_checkFile (colors : Bool) (h : Checked o.toRenaming fix paths s s')
    (path : Bytes) :
    Checked o.toRenaming fix (paths ++ [path]) s (s'.checkFile o fix colors path).1 := by
  obtain ⟨s₁, s₂, hbefore, hafter, -, hsession⟩ := s'.checkFile_spec o fix colors path
  have hdone := ((h.undisturbed hbefore).lintOnDisk path).undisturbed hafter
  rw [hsession]
  split
  · exact hdone
  · exact hdone.print _

theorem checkFiles_cons_error {path : Bytes} {e : FileError} (paths : List Bytes) (tally : Tally)
    (h : (s.checkFile o fix colors path).2 = .error e) :
    checkFiles o fix colors (path :: paths) s tally =
      let rest := checkFiles o fix colors paths (s.checkFile o fix colors path).1 tally
      (rest.1, rest.2.1, false) := by
  rw [checkFiles]
  split
  · rename_i hfile
    rw [hfile]
  · rename_i hfile
    rw [hfile] at h
    cases h

theorem checkFiles_cons_ok {path : Bytes} {report : Report} (paths : List Bytes) (tally : Tally)
    (h : (s.checkFile o fix colors path).2 = .ok report) :
    checkFiles o fix colors (path :: paths) s tally =
      checkFiles o fix colors paths (s.checkFile o fix colors path).1 (tally.add report fix) := by
  rw [checkFiles]
  split
  · rename_i hfile
    rw [hfile] at h
    cases h
  · rename_i hfile
    rw [hfile] at h ⊢
    cases h
    rfl

/-- A whole run. -/
theorem checked_checkFiles (colors : Bool) (files : List Bytes) (tally : Tally)
    (h : Checked o.toRenaming fix paths s s') :
    Checked o.toRenaming fix (paths ++ files) s (checkFiles o fix colors files s' tally).1 := by
  induction files generalizing paths s' tally with
  | nil => simpa [checkFiles] using h
  | cons path files ih =>
    have hfile := checked_checkFile colors h path
    rw [List.append_cons]
    cases hresult : (s'.checkFile o fix colors path).2 with
    | error e =>
      rw [checkFiles_cons_error files tally hresult]
      exact ih tally hfile
    | ok report =>
      rw [checkFiles_cons_ok files tally hresult]
      exact ih (tally.add report fix) hfile

end Checked

/-! ## Checks -/

/-- A check logs what there is to say at the start, checks the files, and sums up. -/
theorem check_spec (s : Session) (o : Options) (fix : Bool) :
    let collection := s.world.tree.collect o.paths
    let colors := o.colors && s.world.terminal.reportColors
    ∃ s₁, Undisturbed s s₁ ∧
      let run := checkFiles o fix colors collection.files s₁ {}
      let found := if fix then run.2.1.gaveUp > 0 else run.2.1.errors > 0
      (s.check o fix).1 = (match o.format with
        | .text => run.1.print (run.2.1.summary fix ++ [Byte.lf])
        | .json => run.1.log (.of .info "lint" (run.2.1.summary fix))) ∧
      (s.check o fix).2 = if !(collection.complete && run.2.2) then .trouble
        else if found then .issues else .clean := by
  intro collection colors
  refine ⟨_, ((s.undisturbed_logAll o.toRenaming.warnings).trans
    (undisturbed_logAll _ collection.events)).trans (undisturbed_log _ _), rfl, rfl⟩

theorem checked_check (s : Session) (o : Options) (fix : Bool) :
    Checked o.toRenaming fix (s.world.tree.collect o.paths).files s (s.check o fix).1 := by
  obtain ⟨s₁, hstart, hsession, -⟩ := s.check_spec o fix
  have hrun := checked_checkFiles (o.colors && s.world.terminal.reportColors)
    (s.world.tree.collect o.paths).files {} (hstart.checked o.toRenaming fix)
  rw [List.nil_append] at hrun
  rw [hsession]
  cases o.format with
  | text => exact hrun.print _
  | json => exact hrun.undisturbed (undisturbed_log _ _)

end Session

/-- What becomes of the entry at a place when the files of some paths are fixed: the second tree has
what fixing ends with if there is a file that some path leads to, it can be read and written, there
is room, and fixing comes to an end; otherwise it has what was there. -/
structure Tree.FixedAt (t t' : Tree) (r : Renaming) (files : List Bytes) (place : Place) :
    Prop where
  settled : ∀ path ∈ files, ∀ content access, t.resolve path = .entry place →
    t.find? place = some (.file content access) → (t.read? path).isSome → (t.open? path).isSome →
    t.hasRoom place (r.lint true path content).1.after = true →
    (r.lint true path content).1.gaveUp = false →
    t'.find? place = some (.file (r.lint true path content).1.after access)
  kept : (∀ path ∈ files, ∀ content access, t.resolve path = .entry place →
    t.find? place = some (.file content access) → (t.read? path).isSome → (t.open? path).isSome →
    (r.lint true path content).1.gaveUp = true) → t'.find? place = t.find? place

/-- A file can be read and opened for writing exactly if it allows both. -/
theorem Tree.isSome_of_find? {t : Tree} {path : Bytes} {place : Place} {content : Bytes}
    {access : Access} (hplace : t.resolve path = .entry place)
    (hfind : t.find? place = some (.file content access)) :
    ((t.read? path).isSome ↔ access.read = true) ∧
      ((t.open? path).isSome ↔ access.write = true) := by
  rw [read?_of_find? hplace hfind, open?_of_find? hplace hfind]
  cases access.read <;> cases access.write <;> simp

theorem Tree.fixedAt_of_entryAfter {t t' : Tree} {r : Renaming} {files : List Bytes} {place : Place}
    (h : (true = true → (∃ path ∈ files, t.resolve path = .entry place) → t.Fits r place) →
      t'.find? place = t.entryAfter r true files place) : t.FixedAt t' r files place := by
  refine ⟨fun path hpath content access hplace hfind hread hopen hroom hgaveUp => ?_,
    fun hkept => ?_⟩
  · obtain ⟨hreadable, hwritable⟩ := isSome_of_find? hplace hfind
    have hfits : t.Fits r place := by
      intro found access' hfound _ _
      obtain ⟨rfl, rfl⟩ := Entry.file.inj (Option.some.inj (hfind.symm.trans hfound))
      exact .inr (Renaming.after_lint hgaveUp ▸ hroom)
    rw [h fun _ _ => hfits, entryAfter, if_pos ⟨rfl, path, hpath, hplace⟩, hfind,
      Renaming.after_lint hgaveUp]
    simp [Entry.fixed, hreadable.mp hread, hwritable.mp hopen]
  · -- If fixing is given up, nothing is written, so there is room.
    have hgaveUp : ∀ content access, (∃ path ∈ files, t.resolve path = .entry place) →
        t.find? place = some (.file content access) → access.read = true → access.write = true →
        r.fixed content = content := by
      rintro content access ⟨path, hpath, hplace⟩ hfind hread hwrite
      obtain ⟨hreadable, hwritable⟩ := isSome_of_find? hplace hfind
      exact Renaming.fixed_of_gaveUp (hkept path hpath content access hplace hfind
        (hreadable.mpr hread) (hwritable.mpr hwrite))
    rw [h fun _ hreached content access hfind hread hwrite =>
      .inl (hgaveUp content access hreached hfind hread hwrite)]
    rcases t.entryAfter_cases r true files place with hsame |
      ⟨⟨-, hreached⟩, content, access, hfind, hread, hwrite, hfixed⟩
    · exact hsame
    · rw [hfixed, hfind, hgaveUp content access hreached hfind hread hwrite]

theorem Tree.entryAfter_congr {t t' : Tree} {r : Renaming} {fix : Bool} {files files' : List Bytes}
    {place : Place} (hfind : t'.find? place = t.find? place)
    (hreached : (∃ path ∈ files', t'.resolve path = .entry place) ↔
      ∃ path ∈ files, t.resolve path = .entry place) :
    t'.entryAfter r fix files' place = t.entryAfter r fix files place := by
  simp only [entryAfter, hfind, hreached]

theorem Tree.Fits.congr {t t' : Tree} {r : Renaming} {place : Place} (h : t.Fits r place)
    (hfind : t'.find? place = t.find? place) : t'.Fits r place := by
  unfold Fits hasRoom at h ⊢
  rwa [hfind]

theorem Tree.mem_files_collect_congr (t : Tree) {paths paths' : List Bytes}
    (h : ∀ path, path ∈ paths' ↔ path ∈ paths) (file : Bytes) :
    file ∈ (t.collect paths').files ↔ file ∈ (t.collect paths).files := by
  simp only [mem_files_collect, h]

namespace Session

variable {s : Session} {args : List Bytes} {fixCommand : Bool} {o : Options}

theorem lint_of_error {e : OptionError} (h : Options.parse args = .error e) :
    Undisturbed s (s.lint args fixCommand).1 ∧ (s.lint args fixCommand).2 = .trouble := by
  rw [lint, h]
  exact ⟨(s.undisturbed_log _).trans (undisturbed_complain _ _), rfl⟩

theorem lint_of_help (h : Options.parse args = .ok o) (hhelp : o.help = true) :
    s.lint args fixCommand = (s.print usage, .clean) := by
  simp only [lint, h, hhelp, if_true]

theorem lint_of_check (h : Options.parse args = .ok o) (hhelp : o.help = false) :
    s.lint args fixCommand = s.check o (fixCommand || o.fix) := by
  simp only [lint, h, hhelp]
  rfl

/-- What a run does to the entry at a place. -/
structure DiskEffect (s : Session) (args : List Bytes) (fixCommand : Bool) (place : Place) :
    Prop where
  /-- In a run that fixes files, the entry is fixed or stays as it is. -/
  fixedAt : ∀ o, Options.parse args = .ok o → o.help = false → (fixCommand || o.fix) = true →
    s.world.tree.FixedAt (s.lint args fixCommand).1.world.tree o.toRenaming
      (s.world.tree.collect o.paths).files place
  /-- In any other run it stays as it is. -/
  kept : (∀ o, Options.parse args = .ok o → o.help = false → (fixCommand || o.fix) = false) →
    (s.lint args fixCommand).1.world.tree.find? place = s.world.tree.find? place
  /-- The order of the paths and their repetition do not matter. -/
  anyOrder : ∀ args' o o', Options.parse args = .ok o → Options.parse args' = .ok o' →
    o'.help = o.help → o'.fix = o.fix → o'.toRenaming = o.toRenaming →
    (∀ path, path ∈ o'.paths ↔ path ∈ o.paths) → s.world.tree.Fits o.toRenaming place →
    (s.lint args' fixCommand).1.world.tree.find? place =
      (s.lint args fixCommand).1.world.tree.find? place
  /-- What is at other places does not matter, as long as the same paths lead to this one. -/
  elsewhere : ∀ s' : Session, place ∉ s'.logPlaces →
    s'.world.tree.find? place = s.world.tree.find? place →
    (∀ o, Options.parse args = .ok o → s.world.tree.Fits o.toRenaming place ∧
      ((∃ path ∈ (s'.world.tree.collect o.paths).files,
          s'.world.tree.resolve path = .entry place) ↔
        ∃ path ∈ (s.world.tree.collect o.paths).files, s.world.tree.resolve path = .entry place)) →
    (s'.lint args fixCommand).1.world.tree.find? place =
      (s.lint args fixCommand).1.world.tree.find? place

theorem find?_lint_of_check (h : Options.parse args = .ok o) (hhelp : o.help = false)
    {place : Place} (hplace : place ∉ s.logPlaces)
    (hfits : (fixCommand || o.fix) = true →
      (∃ path ∈ (s.world.tree.collect o.paths).files, s.world.tree.resolve path = .entry place) →
      s.world.tree.Fits o.toRenaming place) :
    (s.lint args fixCommand).1.world.tree.find? place = s.world.tree.entryAfter o.toRenaming
      (fixCommand || o.fix) (s.world.tree.collect o.paths).files place := by
  rw [lint_of_check h hhelp]
  exact (s.checked_check o _).find?_eq place hplace hfits

theorem find?_lint_of_help (h : Options.parse args = .ok o) (hhelp : o.help = true)
    (place : Place) :
    (s.lint args fixCommand).1.world.tree.find? place = s.world.tree.find? place := by
  rw [lint_of_help h hhelp]
  rfl

theorem find?_lint_of_error {e : OptionError} (h : Options.parse args = .error e) {place : Place}
    (hplace : place ∉ s.logPlaces) :
    (s.lint args fixCommand).1.world.tree.find? place = s.world.tree.find? place :=
  (lint_of_error h).1.world.find?_eq place hplace

end Session

end TextDomain
