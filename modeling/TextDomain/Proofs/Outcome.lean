import TextDomain.Proofs.Issues
import TextDomain.Proofs.Outline
import TextDomain.Check.File

/-!
# What becomes of one file

Fixing a content once is fixing it for good: `Renaming.fixed` is what a file is left with, whatever
its name, and it is left with the same if it is fixed again (`Renaming.fixed_fixed`). On disk this
goes for files that can be read and written, as long as there is room (`Tree.Fits`); no other is
touched (`Renaming.tree_lintOnDisk`). The check fails for exactly the files of `Tree.Refuses`
(`Renaming.result_lintOnDisk`).
-/

namespace TextDomain

namespace Renaming

variable {r : Renaming} {path content : Bytes}

/-- There is one issue for every finding. -/
theorem length_issues_lint (r : Renaming) (fix : Bool) (path content : Bytes) :
    (r.lint fix path content).1.issues.length =
      (r.findings (Source.mk path content).lexemes).length := by
  rw [issues_lint, List.length_map]

/-! ## Fixing for good -/

/-- What is left in a file that is fixed: its content is what fixing ends with, or stays as it is if
fixing is given up. -/
def fixed (r : Renaming) (content : Bytes) : Bytes :=
  let report := (r.lint true [] content).1
  if report.gaveUp then content else report.after

theorem gaveUp_lint_iff (r : Renaming) (path content : Bytes) :
    (r.lint true path content).1.gaveUp = true ↔
      ∀ i < 50, r.revise^[i + 1] content ≠ r.revise^[i] content := by
  rcases r.lint_spec path content with ⟨hgaveUp, hall⟩ | ⟨k, hk, hleast, hgaveUp, -, -⟩
  · exact ⟨fun _ => hall, fun _ => hgaveUp⟩
  · rw [hgaveUp]
    exact ⟨fun h => absurd h Bool.false_ne_true, fun hall => absurd hleast.1 (hall k hk)⟩

/-- Whether fixing is given up does not depend on the name of the file. -/
theorem gaveUp_lint_path (r : Renaming) (path path' content : Bytes) :
    (r.lint true path content).1.gaveUp = (r.lint true path' content).1.gaveUp := by
  rw [Bool.eq_iff_iff, gaveUp_lint_iff, gaveUp_lint_iff]

theorem fixed_of_gaveUp (h : (r.lint true path content).1.gaveUp = true) :
    r.fixed content = content := by
  rw [gaveUp_lint_path r path []] at h
  exact if_pos h

/-- What fixing ends with does not depend on the name of the file. -/
theorem after_lint (h : (r.lint true path content).1.gaveUp = false) :
    (r.lint true path content).1.after = r.fixed content := by
  have hunnamed : (r.lint true [] content).1.gaveUp = false := by
    rw [gaveUp_lint_path r [] path, h]
  have hfixed : r.fixed content = (r.lint true [] content).1.after := by
    rw [fixed, hunnamed]
    rfl
  rcases r.lint_spec path content with ⟨hgaveUp, -⟩ | ⟨k, -, hleast, -, hafter, -⟩
  · rw [hgaveUp] at h
    cases h
  rcases r.lint_spec [] content with ⟨hgaveUp, -⟩ | ⟨k', -, hleast', -, hafter', -⟩
  · rw [hgaveUp] at hunnamed
    cases hunnamed
  rw [hfixed, hafter, hafter', hleast.unique hleast']

theorem revise_fixed (h : (r.lint true path content).1.gaveUp = false) :
    r.revise (r.fixed content) = r.fixed content := by
  rw [← after_lint h]
  rcases r.lint_spec path content with ⟨hgaveUp, -⟩ | ⟨k, -, hleast, -, hafter, -⟩
  · rw [hgaveUp] at h
    cases h
  · rw [hafter, ← Function.iterate_succ_apply' r.revise]
    exact hleast.1

/-- A content that has been fixed is given up again exactly if it was given up. -/
theorem gaveUp_lint_fixed (r : Renaming) (path content : Bytes) :
    (r.lint true path (r.fixed content)).1.gaveUp = (r.lint true path content).1.gaveUp := by
  cases h : (r.lint true path content).1.gaveUp with
  | true => rw [fixed_of_gaveUp h, h]
  | false => exact (lint_of_stable (revise_fixed h)).1

theorem changed_lint_iff (r : Renaming) (path content : Bytes) :
    (r.lint true path content).1.changed = true ↔ r.fixed content ≠ content := by
  have hcontent : (r.lint true path content).1.content = content := rfl
  cases h : (r.lint true path content).1.gaveUp with
  | true => simp [Report.changed, h, fixed_of_gaveUp h]
  | false => simp [Report.changed, h, after_lint h, hcontent]

theorem after_of_changed (h : (r.lint true path content).1.changed = true) :
    (r.lint true path content).1.after = r.fixed content := by
  simp only [Report.changed, Bool.and_eq_true, Bool.not_eq_true'] at h
  exact after_lint h.1

/-- Fixing twice is fixing once. -/
theorem fixed_fixed (r : Renaming) (content : Bytes) :
    r.fixed (r.fixed content) = r.fixed content := by
  cases h : (r.lint true [] content).1.gaveUp with
  | true => rw [fixed_of_gaveUp h, fixed_of_gaveUp h]
  | false =>
    by_contra hne
    have hchanged := (changed_lint_iff r [] (r.fixed content)).mpr hne
    rw [(lint_of_stable (revise_fixed h)).2.2] at hchanged
    cases hchanged

theorem fixed_nil (r : Renaming) : r.fixed [] = [] := by
  by_contra hne
  have hlexemes : (Source.mk [] []).lexemes = [⟨.eof, []⟩] := by decide +kernel
  have hnone : r.findings (Source.mk [] []).lexemes = [] := by
    rw [hlexemes, findings]
    exact ite_self _
  have hstable : r.revise [] = [] := (r.revise_eq_self_iff [] []).mpr (by simp [hnone])
  have hchanged := (r.changed_lint_iff [] []).mpr hne
  rw [(lint_of_stable hstable).2.2] at hchanged
  cases hchanged

/-- The old domain is no longer found in what fixing ends with. -/
theorem findings_fixed (hne : r.old ≠ r.new) (h : (r.lint true path content).1.gaveUp = false) :
    r.findings (Source.mk path (r.fixed content)).lexemes = [] := by
  refine List.eq_nil_iff_forall_not_mem.mpr fun f hf => ?_
  obtain ⟨text, hliteral, hold⟩ := literal_of_mem_findings hf
  have hnew := (r.revise_eq_self_iff path _).mp (revise_fixed h) f hf
  have htext := Option.some.inj (hliteral.symm.trans hnew)
  cases htext
  exact hne (hold.symm.trans (unquote_of_quoted (Or.inl rfl) r.new))

end Renaming

/-! ## Reading and writing files -/

namespace Tree

section Find

variable {t : Tree} {path : Bytes} {place : Place} {content : Bytes} {access : Access}
  (hplace : t.resolve path = .entry place) (hfind : t.find? place = some (.file content access))

include hplace hfind

theorem read?_of_find? : t.read? path = if access.read then some content else none := by
  rw [read?, hplace]
  simp only [hfind]

theorem open?_of_find? : t.open? path = if access.write then some (place, t) else none := by
  rw [open?, hplace]
  simp only [hfind]

theorem write_of_find? (hwrite : access.write = true) (text : Bytes) :
    t.write path text = if t.hasRoom place text then .whole (t.setContent place text)
      else .cutShort (t.setContent place text) := by
  rw [write, open?_of_find? hplace hfind, if_pos hwrite]

end Find

variable {t t' : Tree} {path : Bytes} {place : Place}

/-- A path to something that can be read is opened for writing at the file that it leads to, or at
a device, which is empty. -/
theorem open?_of_read? {content : Bytes} {opened : Place × Tree}
    (hread : t.read? path = some content) (hopen : t.open? path = some opened) :
    opened.2 = t ∧ t.resolve path = .entry opened.1 ∧
      ((∃ access, t.find? opened.1 = some (.file content access) ∧ access.read = true ∧
        access.write = true) ∨
        (∃ access, t.find? opened.1 = some (.special access)) ∧ content = []) := by
  unfold read? at hread
  cases hplace : t.resolve path with
  | entry place =>
    rw [hplace] at hread
    rw [open?, hplace] at hopen
    rcases hfind : t.find? place with _ | (⟨found, access⟩ | access | target | access)
    case some.file =>
      simp only [hfind, Option.ite_none_right_eq_some, Option.some.injEq] at hread hopen
      obtain ⟨hreadable, rfl⟩ := hread
      obtain ⟨hwritable, rfl⟩ := hopen
      exact ⟨rfl, rfl, .inl ⟨access, hfind, hreadable, hwritable⟩⟩
    case some.special =>
      simp only [hfind, Option.ite_none_right_eq_some, Option.some.injEq] at hread hopen
      obtain ⟨-, rfl⟩ := hread
      obtain ⟨-, rfl⟩ := hopen
      exact ⟨rfl, rfl, .inr ⟨⟨access, hfind⟩, rfl⟩⟩
    all_goals simp [hfind] at hopen
  | _ => simp [hplace] at hread

/-- A text can be written whole. -/
def Takes (t : Tree) (path text : Bytes) : Prop :=
  ∃ t', t.write path text = .whole t'

theorem takes_iff {text : Bytes} :
    t.Takes path text ↔ ∃ opened, t.open? path = some opened ∧ opened.2.hasRoom opened.1 text := by
  unfold Takes write
  rcases t.open? path with _ | ⟨place, t'⟩
  · simp
  · cases hroom : t'.hasRoom place text <;> simp [hroom]

theorem takes_of_find? {content text : Bytes} {access : Access}
    (hplace : t.resolve path = .entry place)
    (hfind : t.find? place = some (.file content access)) (hwrite : access.write = true) :
    t.Takes path text ↔ t.hasRoom place text = true := by
  rw [takes_iff, open?_of_find? hplace hfind, if_pos hwrite]
  simp

theorem resolve_congr (h : t'.outline = t.outline) (path : Bytes) :
    t'.resolve path = t.resolve path := by
  rw [← t'.resolve_outline, h, t.resolve_outline]

/-- Whether something that can be read takes a text does not depend on contents. -/
theorem takes_congr (h : t'.outline = t.outline) {content content' : Bytes}
    (hread : t.read? path = some content) (hread' : t'.read? path = some content') (text : Bytes) :
    t'.Takes path text ↔ t.Takes path text := by
  have hopened : t'.opened? path = t.opened? path := by
    rw [← t'.opened?_outline, h, t.opened?_outline]
  have hroom : ∀ place, t'.hasRoom place text = t.hasRoom place text := fun place => by
    rw [← t'.hasRoom_outline, h, t.hasRoom_outline]
  rw [opened?, opened?] at hopened
  rw [takes_iff, takes_iff]
  cases hopen : t.open? path with
  | none =>
    rw [hopen, Option.map_none, Option.map_eq_none_iff] at hopened
    simp [hopened]
  | some opened =>
    rw [hopen, Option.map_some, Option.map_eq_some_iff] at hopened
    obtain ⟨opened', hopen', hplace⟩ := hopened
    simp [hopen', (open?_of_read? hread hopen).1, (open?_of_read? hread' hopen').1, hroom, hplace]

/-- A file cannot be checked: it cannot be read, or fixing changes it and the result cannot be
written. -/
def Refuses (t : Tree) (r : Renaming) (fix : Bool) (path : Bytes) : Prop :=
  t.read? path = none ∨
    fix = true ∧ ∃ content, t.read? path = some content ∧
      (r.lint true path content).1.changed = true ∧
      ¬ t.Takes path (r.lint true path content).1.after

theorem refuses_iff_of_read? {r : Renaming} {fix : Bool} {content : Bytes}
    (hread : t.read? path = some content) : t.Refuses r fix path ↔
      fix = true ∧ (r.lint true path content).1.changed = true ∧
        ¬ t.Takes path (r.lint true path content).1.after := by
  simp [Refuses, hread]

/-- There is room at a place for what the file there is to be left with. -/
def Fits (t : Tree) (r : Renaming) (place : Place) : Prop :=
  ∀ content access, t.find? place = some (.file content access) → access.read = true →
    access.write = true → r.fixed content = content ∨ t.hasRoom place (r.fixed content) = true

/-- There is room for a file that does not refuse to be fixed. -/
theorem fits_of_not_refuses {r : Renaming} (h : ¬ t.Refuses r true path)
    (hplace : t.resolve path = .entry place) : t.Fits r place := by
  intro content access hfind hread hwrite
  by_cases hsame : r.fixed content = content
  · exact .inl hsame
  · have hchanged := (r.changed_lint_iff path content).mpr hsame
    have htakes : t.Takes path (r.lint true path content).1.after := by
      have hcontent : t.read? path = some content := by
        rw [read?_of_find? hplace hfind, if_pos hread]
      rw [refuses_iff_of_read? hcontent] at h
      by_contra hnot
      exact h ⟨rfl, hchanged, hnot⟩
    rw [takes_of_find? hplace hfind hwrite, Renaming.after_of_changed hchanged] at htakes
    exact .inr htakes

end Tree

/-! ## What is left -/

/-- An entry after it has been fixed: what can be fixed is a file that can be read and written. -/
def Entry.fixed (r : Renaming) : Entry → Entry
  | .file content access =>
    .file (if access.read && access.write then r.fixed content else content) access
  | entry => entry

theorem Entry.fixed_cases (r : Renaming) (entry : Entry) :
    entry.fixed r = entry ∨ ∃ content access, entry = .file content access ∧ access.read = true ∧
      access.write = true ∧ entry.fixed r = .file (r.fixed content) access := by
  cases entry with
  | file content access =>
    cases hread : access.read with
    | false => simp [fixed, hread]
    | true =>
      cases hwrite : access.write with
      | false => simp [fixed, hwrite]
      | true => exact .inr ⟨content, access, rfl, hread, hwrite, by simp [fixed, hread, hwrite]⟩
  | _ => exact .inl rfl

theorem Entry.fixed_fixed (r : Renaming) (entry : Entry) :
    (entry.fixed r).fixed r = entry.fixed r := by
  rcases entry.fixed_cases r with h | ⟨content, access, rfl, hread, hwrite, h⟩
  · rw [h, h]
  · rw [h]
    simp [fixed, hread, hwrite, r.fixed_fixed]

/-- The entry at a place once the files that some paths lead to have been checked. -/
def Tree.entryAfter (t : Tree) (r : Renaming) (fix : Bool) (paths : List Bytes) (place : Place) :
    Option Entry :=
  if fix = true ∧ ∃ path ∈ paths, t.resolve path = .entry place then
    (t.find? place).map (Entry.fixed r)
  else t.find? place

/-- Either nothing has become of the entry, or it is a file that can be read and written, some path
leads there, and it has been fixed. -/
theorem Tree.entryAfter_cases (t : Tree) (r : Renaming) (fix : Bool) (paths : List Bytes)
    (place : Place) : t.entryAfter r fix paths place = t.find? place ∨
      (fix = true ∧ ∃ path ∈ paths, t.resolve path = .entry place) ∧
        ∃ content access, t.find? place = some (.file content access) ∧ access.read = true ∧
          access.write = true ∧
          t.entryAfter r fix paths place = some (.file (r.fixed content) access) := by
  rw [entryAfter]
  split
  · rename_i hreached
    cases hentry : t.find? place with
    | none => exact .inl rfl
    | some entry =>
      rcases entry.fixed_cases r with h | ⟨content, access, rfl, hread, hwrite, h⟩
      · exact .inl (congrArg some h)
      · exact .inr ⟨hreached, content, access, rfl, hread, hwrite, congrArg some h⟩
  · exact .inl rfl

/-- There is room for what has been fixed once more. -/
theorem Tree.Fits.after {t t' : Tree} {r : Renaming} {fix : Bool} {paths : List Bytes}
    {place : Place} (houtline : t'.outline = t.outline)
    (hfind : t'.find? place = t.entryAfter r fix paths place) (h : t.Fits r place) :
    t'.Fits r place := by
  intro content access hfile hread hwrite
  rw [hfind] at hfile
  rcases t.entryAfter_cases r fix paths place with hkept | ⟨-, old, access', -, -, -, hfixed⟩
  · rw [hkept] at hfile
    rw [← t'.hasRoom_outline, houtline, t.hasRoom_outline]
    exact h content access hfile hread hwrite
  · rw [hfixed] at hfile
    cases hfile
    exact .inl (r.fixed_fixed old)

namespace Renaming

variable {r : Renaming} {fix : Bool} {t : Tree} {path content : Bytes} {place : Place}
  {access : Access}

/-- A file that can be read and written is fixed if there is room for it. No other is touched. -/
theorem tree_lintOnDisk_of_file (hplace : t.resolve path = .entry place)
    (hfind : t.find? place = some (.file content access)) (hread : access.read = true)
    (hwrite : access.write = true) :
    let t' := (r.lintOnDisk true t path).tree
    t'.outline = t.outline ∧ (∀ other, other ≠ place → t'.find? other = t.find? other) ∧
      (t.Fits r place → t'.find? place = some (.file (r.fixed content) access)) := by
  intro t'
  by_cases hsame : r.fixed content = content
  · have htree : t' = t := by
      dsimp only [t']
      rw [lintOnDisk, Tree.read?_of_find? hplace hfind, if_pos hread]
      dsimp only
      rw [if_neg fun h => (r.changed_lint_iff path content).mp h.2 hsame]
    rw [htree, hsame]
    exact ⟨rfl, fun _ _ => rfl, fun _ => hfind⟩
  · have hchanged := (r.changed_lint_iff path content).mpr hsame
    have htree : t' = t.setContent place (r.fixed content) := by
      dsimp only [t']
      rw [lintOnDisk, Tree.read?_of_find? hplace hfind, if_pos hread]
      dsimp only
      rw [if_pos ⟨rfl, hchanged⟩, after_of_changed hchanged,
        Tree.write_of_find? hplace hfind hwrite]
      cases t.hasRoom place (r.fixed content) <;> rfl
    rw [htree]
    refine ⟨t.outline_setContent place _, fun other => t.find?_setContent_of_ne _, fun hfits => ?_⟩
    have hroom := (hfits content access hfind hread hwrite).resolve_left hsame
    simp only [Tree.hasRoom, hfind, beq_iff_eq] at hroom
    rw [Tree.find?_setContent_self _ hfind, hroom]

theorem tree_lintOnDisk_of_not_file (h : fix = true → ∀ place content access,
    t.resolve path = .entry place → t.find? place = some (.file content access) →
      access.read = true → access.write = false) :
    (r.lintOnDisk fix t path).tree = t := by
  rw [lintOnDisk]
  cases hread : t.read? path with
  | none => rfl
  | some content =>
    dsimp only
    split
    · rename_i hfix
      rw [Tree.write]
      cases hopen : t.open? path with
      | none => rfl
      | some opened =>
        obtain ⟨htree, hplace, ⟨access, hfind, hreadable, hwritable⟩ | ⟨⟨access, hfind⟩, -⟩⟩ :=
          Tree.open?_of_read? hread hopen
        · have hnot := h hfix.1 opened.1 content access hplace hfind hreadable
          rw [hwritable] at hnot
          cases hnot
        · simp [htree, Tree.hasRoom, Tree.setContent, hfind]
    · rfl

/-- Checking a file fixes it, if that is asked for and can be done, and leaves the others alone. -/
theorem tree_lintOnDisk (r : Renaming) (fix : Bool) (t : Tree) (path : Bytes) :
    let t' := (r.lintOnDisk fix t path).tree
    t'.outline = t.outline ∧
    ∀ place, (fix = true → t.resolve path = .entry place → t.Fits r place) →
      t'.find? place = t.entryAfter r fix [path] place := by
  intro t'
  by_cases h : fix = true ∧ ∃ place content access, t.resolve path = .entry place ∧
      t.find? place = some (.file content access) ∧ access.read = true ∧ access.write = true
  · obtain ⟨rfl, place, content, access, hplace, hfind, hread, hwrite⟩ := h
    obtain ⟨houtline, hothers, hfixed⟩ := tree_lintOnDisk_of_file (r := r) hplace hfind hread hwrite
    refine ⟨houtline, fun other hfits => ?_⟩
    simp only [Tree.entryAfter, List.mem_singleton, exists_eq_left, hplace, true_and,
      Found.entry.injEq]
    by_cases hother : other = place
    · subst hother
      rw [if_pos rfl, hfixed (hfits rfl hplace), hfind]
      simp [Entry.fixed, hread, hwrite]
    · rw [if_neg (Ne.symm hother), hothers other hother]
  · have hnot : fix = true → ∀ place content access, t.resolve path = .entry place →
        t.find? place = some (.file content access) → access.read = true → access.write = false :=
      fun hfix place content access hplace hfind hread => Bool.eq_false_iff.mpr fun hwrite =>
        h ⟨hfix, place, content, access, hplace, hfind, hread, hwrite⟩
    have htree : t' = t := tree_lintOnDisk_of_not_file hnot
    rw [htree]
    refine ⟨rfl, fun other _ => ?_⟩
    rcases t.entryAfter_cases r fix [path] other with
      hkept | ⟨⟨hfix, path', hpath', hplace⟩, content, access, hfind, hread, hwrite, -⟩
    · exact hkept.symm
    · obtain rfl := List.mem_singleton.mp hpath'
      exact absurd ⟨hfix, other, content, access, hplace, hfind, hread, hwrite⟩ h

/-- A check fails for the files that refuse it, and reports on the others. -/
theorem result_lintOnDisk (r : Renaming) (fix : Bool) (t : Tree) (path : Bytes) :
    let result := (r.lintOnDisk fix t path).result
    (t.Refuses r fix path ∧ ∃ e, result = .error e) ∨
    (¬ t.Refuses r fix path ∧ ∃ content, t.read? path = some content ∧
      result = .ok (r.lint fix path content).1) := by
  intro result
  have hresult : result = (r.lintOnDisk fix t path).result := rfl
  rw [lintOnDisk] at hresult
  cases hread : t.read? path with
  | none =>
    rw [hread] at hresult
    exact .inl ⟨.inl hread, _, hresult⟩
  | some content =>
    simp only [hread] at hresult
    rw [Tree.refuses_iff_of_read? hread]
    by_cases hfix : fix = true ∧ (r.lint fix path content).1.changed = true
    · rw [if_pos hfix] at hresult
      obtain ⟨rfl, hchanged⟩ := hfix
      cases hwrite : t.write path (r.lint true path content).1.after with
      | refused =>
        rw [hwrite] at hresult
        exact .inl ⟨⟨rfl, hchanged, by simp [Tree.Takes, hwrite]⟩, _, hresult⟩
      | cutShort t' =>
        rw [hwrite] at hresult
        exact .inl ⟨⟨rfl, hchanged, by simp [Tree.Takes, hwrite]⟩, _, hresult⟩
      | whole t' =>
        rw [hwrite] at hresult
        exact .inr ⟨fun h => h.2.2 ⟨t', hwrite⟩, content, rfl, hresult⟩
    · rw [if_neg hfix] at hresult
      exact .inr ⟨fun h => hfix ⟨h.1, h.1 ▸ h.2.1⟩, content, rfl, hresult⟩

end Renaming

/-! ## Files that others have been checked before -/

/-- There is something to complain about: an issue, or if files are being fixed that this one was
given up. -/
def Report.Unclean (report : Report) (fix : Bool) : Prop :=
  if fix then report.gaveUp = true else report.issues ≠ []

section After

variable {r : Renaming} {fix : Bool} {t t' : Tree} {paths : List Bytes} {path : Bytes}
  (houtline : t'.outline = t.outline)
  (hfits : fix = true → ∀ place, (∃ path ∈ paths, t.resolve path = .entry place) → t.Fits r place)
  (hfind : ∀ place, t.resolve path = .entry place →
    t'.find? place = t.entryAfter r fix paths place)

include houtline hfind

/-- What can be read under a path is what could be read before, or that after fixing; the latter
only of a file that can be written. -/
theorem Tree.read?_after : t'.read? path = t.read? path ∨ fix = true ∧
    ∃ place content access, t.resolve path = .entry place ∧
      (∃ path ∈ paths, t.resolve path = .entry place) ∧
      t.find? place = some (.file content access) ∧ access.read = true ∧ access.write = true ∧
      t.read? path = some content ∧ t'.read? path = some (r.fixed content) := by
  unfold read?
  rw [resolve_congr houtline]
  cases hplace : t.resolve path with
  | entry place =>
    dsimp only
    rcases t.entryAfter_cases r fix paths place with
      hkept | ⟨⟨hfix, hreached⟩, content, access, hentry, hread, hwrite, hfixed⟩
    · rw [hfind place hplace, hkept]
      exact .inl rfl
    · rw [hfind place hplace, hfixed, hentry]
      simp only [hread, if_true]
      exact .inr ⟨hfix, place, content, access, rfl, hreached, hentry, hread, hwrite, rfl, rfl⟩
  | vacant place => exact .inl rfl
  | missing => exact .inl rfl
  | looped => exact .inl rfl
  | denied => exact .inl rfl

include hfits

/-- A file refuses to be checked whether or not others have been checked before. -/
theorem Tree.refuses_after : t'.Refuses r fix path ↔ t.Refuses r fix path := by
  rcases read?_after houtline hfind with
    hread | ⟨hfix, place, content, access, hplace, hreached, hentry, haccess, hwrite, hread, hread'⟩
  · cases hcontent : t.read? path with
    | none => simp [Refuses, hread, hcontent]
    | some content =>
      rw [hcontent] at hread
      rw [refuses_iff_of_read? hread, refuses_iff_of_read? hcontent,
        takes_congr houtline hcontent hread]
  · -- What has been fixed does not change again, and there was room for it.
    rw [refuses_iff_of_read? hread', refuses_iff_of_read? hread]
    refine iff_of_false ?_ ?_
    · rintro ⟨-, hchanged, -⟩
      exact (r.changed_lint_iff path _).mp hchanged (r.fixed_fixed content)
    · rintro ⟨-, hchanged, hrefused⟩
      rw [takes_of_find? hplace hentry hwrite, Renaming.after_of_changed hchanged] at hrefused
      rcases hfits hfix place hreached content access hentry haccess hwrite with hsame | hroom
      · exact (r.changed_lint_iff path content).mp hchanged hsame
      · exact hrefused hroom

/-- What a file is found to be is the same whether or not others have been checked before. -/
theorem Renaming.result_lintOnDisk_after :
    let result := (r.lintOnDisk fix t' path).result
    (t.Refuses r fix path ∧ ∃ e, result = .error e) ∨
    (¬ t.Refuses r fix path ∧ ∃ content report, t.read? path = some content ∧
      result = .ok report ∧ (report.Unclean fix ↔ (r.lint fix path content).1.Unclean fix)) := by
  intro result
  have hrefuses := Tree.refuses_after houtline hfits hfind
  rcases r.result_lintOnDisk fix t' path with ⟨hrefused, herror⟩ | ⟨hnot, content', hread', hresult⟩
  · exact .inl ⟨hrefuses.mp hrefused, herror⟩
  · refine .inr ⟨fun h => hnot (hrefuses.mpr h), ?_⟩
    rcases Tree.read?_after houtline hfind with
      hread | ⟨rfl, -, content, -, -, -, -, -, -, hread, hfixed⟩
    · exact ⟨content', _, hread.symm.trans hread', hresult, Iff.rfl⟩
    · obtain rfl := Option.some.inj (hread'.symm.trans hfixed)
      refine ⟨content, _, hread, hresult, ?_⟩
      simp only [Report.Unclean, if_true, r.gaveUp_lint_fixed]

end After

end TextDomain
