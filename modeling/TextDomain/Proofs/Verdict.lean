import TextDomain.Proofs.Runs

/-!
# How a run ends

What a run has to say about a file depends on the file alone: it is the same whether or not other
files have been fixed before (`Session.result_checkFile`). So the tally of a run and the exit can be
told from the tree at the start (`Session.checkFiles_spec`, `Session.check_exit`), as long as no log
file is among the files that are checked.
-/

namespace TextDomain

/-! ## Tallies -/

/-- Something has been found, or if files are being fixed some file has been given up. -/
def Tally.Unclean (t : Tally) (fix : Bool) : Prop :=
  if fix then t.gaveUp > 0 else t.errors > 0

/-- No number that matters is negative. -/
structure Tally.Proper (t : Tally) : Prop where
  errors : 0 ≤ t.errors
  gaveUp : 0 ≤ t.gaveUp

section Tally

variable {t : Tally}

theorem Tally.Proper.add (h : t.Proper) (report : Report) (fix : Bool) :
    (t.add report fix).Proper := by
  obtain ⟨herrors, hgaveUp⟩ := h
  refine ⟨?_, ?_⟩
  · simp only [Tally.add]
    omega
  · simp only [Tally.add]
    split <;> omega

/-- One more file. -/
theorem Tally.unclean_add (h : t.Proper) (report : Report) (fix : Bool) :
    (t.add report fix).Unclean fix ↔ t.Unclean fix ∨ report.Unclean fix := by
  obtain ⟨herrors, hgaveUp⟩ := h
  cases fix with
  | false =>
    have hissues : report.issues ≠ [] ↔ 0 < report.issues.length := List.length_pos_iff.symm
    simp only [Unclean, Report.Unclean, add, Bool.false_eq_true, if_false, hissues]
    omega
  | true =>
    simp only [Unclean, Report.Unclean, add, true_and, if_true]
    split
    · rename_i hreport
      simp only [hreport, or_true, iff_true]
      omega
    · rename_i hreport
      exact (or_iff_left hreport).symm

end Tally

namespace Session

/-- No file that is checked is logged to. -/
def LogsApart (s : Session) (files : List Bytes) : Prop :=
  ∀ path ∈ files, ∀ place ∈ s.logPlaces, s.world.tree.resolve path ≠ .entry place

section Verdict

variable {fix : Bool} {paths files : List Bytes} {s s' : Session} {o : Options} {path : Bytes}

/-- There is room for all files that have been fixed if none of them refused. -/
theorem fits_of_not_refuses {r : Renaming}
    (hdone : ∀ path ∈ paths, ¬ s.world.tree.Refuses r fix path) (hfix : fix = true) (place : Place)
    (hreached : ∃ path ∈ paths, s.world.tree.resolve path = .entry place) :
    s.world.tree.Fits r place := by
  obtain ⟨path, hpath, hplace⟩ := hreached
  exact Tree.fits_of_not_refuses (hfix ▸ hdone path hpath) hplace

/-- What is said about a file in the middle of a run, in terms of the tree at the start. -/
theorem result_checkFile (colors : Bool) (h : Checked o.toRenaming fix paths s s')
    (hfits : fix = true → ∀ place, (∃ path ∈ paths, s.world.tree.resolve path = .entry place) →
      s.world.tree.Fits o.toRenaming place)
    (hlog : ∀ place ∈ s.logPlaces, s.world.tree.resolve path ≠ .entry place) :
    let result := (s'.checkFile o fix colors path).2
    (s.world.tree.Refuses o.toRenaming fix path ∧ ∃ e, result = .error e) ∨
    (¬ s.world.tree.Refuses o.toRenaming fix path ∧ ∃ content report,
      s.world.tree.read? path = some content ∧ result = .ok report ∧
      (report.Unclean fix ↔ (o.toRenaming.lint fix path content).1.Unclean fix)) := by
  obtain ⟨s₁, -, hbefore, -, hresult, -⟩ := s'.checkFile_spec o fix colors path
  have hstart := h.undisturbed hbefore
  have hfind : ∀ place, s.world.tree.resolve path = .entry place → _ := fun place hplace =>
    hstart.find?_eq place (fun hmem => hlog place hmem hplace) fun hfix => hfits hfix place
  rw [hresult]
  exact Renaming.result_lintOnDisk_after hstart.outline_eq hfits hfind

/-- A run deals with all files exactly if none refuses. If so, the tally is unclean if it was before
or if there is something to complain about in some file. -/
theorem checkFiles_spec (colors : Bool) {tally : Tally} (hproper : tally.Proper)
    (h : Checked o.toRenaming fix paths s s')
    (hdone : ∀ path ∈ paths, ¬ s.world.tree.Refuses o.toRenaming fix path)
    (hlog : s.LogsApart files) :
    let run := checkFiles o fix colors files s' tally
    (run.2.2 = true ↔ ∀ path ∈ files, ¬ s.world.tree.Refuses o.toRenaming fix path) ∧
    (run.2.2 = true → (run.2.1.Unclean fix ↔ tally.Unclean fix ∨
      ∃ path ∈ files, ∃ content, s.world.tree.read? path = some content ∧
        (o.toRenaming.lint fix path content).1.Unclean fix)) := by
  induction files generalizing paths s' tally with
  | nil => simp [checkFiles]
  | cons path files ih =>
    have hfile := checked_checkFile colors h path
    have hlater : s.LogsApart files := fun path' hpath' =>
      hlog path' (List.mem_cons_of_mem _ hpath')
    rcases result_checkFile colors h (fits_of_not_refuses hdone) (hlog path List.mem_cons_self) with
      ⟨hrefuses, e, herror⟩ | ⟨hnot, content, report, hread, hok, hunclean⟩
    · rw [checkFiles_cons_error files tally herror]
      refine ⟨⟨fun hend => absurd hend Bool.false_ne_true, fun hall => ?_⟩,
        fun hend => absurd hend Bool.false_ne_true⟩
      exact absurd hrefuses (hall path List.mem_cons_self)
    · rw [checkFiles_cons_ok files tally hok]
      have hdone' : ∀ path' ∈ paths ++ [path], ¬ s.world.tree.Refuses o.toRenaming fix path' :=
        List.forall_mem_append.mpr ⟨hdone, List.forall_mem_singleton.mpr hnot⟩
      obtain ⟨hcomplete, htally⟩ := ih (hproper.add report fix) hfile hdone' hlater
      refine ⟨?_, fun hend => ?_⟩
      · rw [hcomplete, List.forall_mem_cons]
        exact ⟨fun hall => ⟨hnot, hall⟩, And.right⟩
      · rw [htally hend, Tally.unclean_add hproper, hunclean, List.exists_mem_cons_iff, or_assoc]
        simp only [hread, Option.some.injEq, exists_eq_left']

end Verdict

end Session

/-! ## Exits -/

/-- Some path leads to neither a folder nor a file, or some file that the paths stand for cannot be
read, or cannot be written or not to the end although fixing changes it. -/
def Tree.Troubles (t : Tree) (o : Options) (fix : Bool) : Prop :=
  (∃ path ∈ o.paths, t.status path ≠ .folder ∧ t.status path ≠ .file) ∨
    ∃ path ∈ (t.collect o.paths).files, t.Refuses o.toRenaming fix path

/-- The old domain is found in some file that the paths stand for, or if files are being fixed some
file is given up. -/
def Tree.Complains (t : Tree) (o : Options) (fix : Bool) : Prop :=
  ∃ path ∈ (t.collect o.paths).files, ∃ content, t.read? path = some content ∧
    if fix then (o.toRenaming.lint true path content).1.gaveUp = true
    else o.toRenaming.findings (Source.mk path content).lexemes ≠ []

theorem Exit.code_spec (e : Exit) :
    (e.code = 2 ↔ e = .trouble) ∧ (e.code = 1 ↔ e = .issues) ∧ (e.code = 0 ↔ e = .clean) := by
  cases e <;> decide

theorem Exit.code_eq_zero_iff (e : Exit) : e.code = 0 ↔ e.code ≠ 2 ∧ e.code ≠ 1 := by
  cases e <;> decide

theorem Renaming.unclean_lint_iff (r : Renaming) (fix : Bool) (path content : Bytes) :
    (r.lint fix path content).1.Unclean fix ↔
      if fix then (r.lint true path content).1.gaveUp = true
      else r.findings (Source.mk path content).lexemes ≠ [] := by
  cases fix with
  | false =>
    simp only [Report.Unclean, Bool.false_eq_true, if_false, ← List.length_pos_iff,
      r.length_issues_lint]
  | true => rfl

namespace Session

variable {s : Session} {o : Options}

/-- How a check ends can be told from the tree at the start. -/
theorem check_exit (fix : Bool) (hlog : s.LogsApart (s.world.tree.collect o.paths).files) :
    ((s.check o fix).2 = .trouble ↔ s.world.tree.Troubles o fix) ∧
    ((s.check o fix).2 = .issues ↔
      ¬ s.world.tree.Troubles o fix ∧ s.world.tree.Complains o fix) ∧
    ((s.check o fix).2 = .clean ↔
      ¬ s.world.tree.Troubles o fix ∧ ¬ s.world.tree.Complains o fix) := by
  obtain ⟨s₁, hstart, -, hexit⟩ := s.check_spec o fix
  have hproper : Tally.Proper {} := ⟨le_refl 0, le_refl 0⟩
  obtain ⟨hcomplete, hunclean⟩ := checkFiles_spec (o.colors && s.world.terminal.reportColors)
    hproper (hstart.checked o.toRenaming fix) (List.forall_mem_nil _) hlog
  set run := checkFiles o fix (o.colors && s.world.terminal.reportColors)
    (s.world.tree.collect o.paths).files s₁ {}
  have htrouble : s.world.tree.Troubles o fix ↔
      ¬ ((s.world.tree.collect o.paths).complete = true ∧ run.2.2 = true) := by
    rw [Tree.Troubles, hcomplete, Tree.complete_collect_iff, not_and_or]
    simp
  have hcomplains : run.2.2 = true → (run.2.1.Unclean fix ↔ s.world.tree.Complains o fix) := by
    intro hdone
    have hnone : ¬ Tally.Unclean {} fix := by cases fix <;> exact lt_irrefl 0
    simp only [hunclean hdone, hnone, false_or, Tree.Complains, Renaming.unclean_lint_iff]
  by_cases hdone : (s.world.tree.collect o.paths).complete = true ∧ run.2.2 = true
  · have hquiet : ¬ s.world.tree.Troubles o fix := fun h => htrouble.mp h hdone
    rw [hdone.1, hdone.2] at hexit
    by_cases hfound : run.2.1.Unclean fix
    · have hissues : (s.check o fix).2 = .issues := hexit.trans (if_pos hfound)
      simp [hissues, hquiet, (hcomplains hdone.2).mp hfound]
    · have hclean : (s.check o fix).2 = .clean := hexit.trans (if_neg hfound)
      simp [hclean, hquiet, mt (hcomplains hdone.2).mpr hfound]
  · have hexit' : (s.check o fix).2 = .trouble := by
      rw [← Bool.and_eq_true, Bool.not_eq_true] at hdone
      rw [hexit, hdone]
      rfl
    simp [hexit', htrouble.mpr hdone]

theorem logsApart_start (w : World) (files : List Bytes) : (start w).LogsApart files :=
  fun _ _ _ hplace => absurd hplace List.not_mem_nil

section Quiet

variable {paths files : List Bytes} {s s' : Session} {o : Options} {path content : Bytes}

/-- What is written out about a file is what its report says. -/
theorem out_checkFile {report : Report} {fix colors : Bool}
    (h : (s.checkFile o fix colors path).2 = .ok report) :
    (s.checkFile o fix colors path).1.world.out = s.world.out ++
      if fix then report.outcome o.format colors else report.diagnostics o.format colors := by
  obtain ⟨s₁, s₂, hbefore, hafter, hresult, hsession⟩ := s.checkFile_spec o fix colors path
  rw [hsession, ← hresult, h]
  exact congrArg (· ++ _) (hafter.world.out_eq.trans hbefore.world.out_eq)

/-- Nothing is written out about a file in which nothing is found. -/
theorem checkFile_of_quiet (colors : Bool) (h : Checked o.toRenaming false paths s s')
    (hlog : ∀ place ∈ s.logPlaces, s.world.tree.resolve path ≠ .entry place)
    (hread : s.world.tree.read? path = some content)
    (hfindings : o.toRenaming.findings (Source.mk path content).lexemes = []) :
    (s'.checkFile o false colors path).1.world.out = s'.world.out ∧
      ∃ report, (s'.checkFile o false colors path).2 = .ok report ∧ report.issues = [] := by
  rcases result_checkFile colors h (fun hfix => absurd hfix Bool.false_ne_true) hlog with
    ⟨hrefuses, -⟩ | ⟨-, content', report, hread', hok, hunclean⟩
  · rcases hrefuses with hnone | ⟨hfix, -⟩
    · rw [hread] at hnone
      cases hnone
    · cases hfix
  · obtain rfl := Option.some.inj (hread.symm.trans hread')
    have hissues : report.issues = [] := by
      by_contra hne
      exact (o.toRenaming.unclean_lint_iff false path content).mp (hunclean.mp hne) hfindings
    refine ⟨?_, report, hok, hissues⟩
    rw [out_checkFile hok, if_neg Bool.false_ne_true, Report.diagnostics, hissues]
    exact List.append_nil _

/-- A run over files in which nothing is found writes nothing out and counts the files. -/
theorem checkFiles_of_quiet (colors : Bool) (tally : Tally)
    (h : Checked o.toRenaming false paths s s') (hlog : s.LogsApart files)
    (hquiet : ∀ path ∈ files, ∃ content, s.world.tree.read? path = some content ∧
      o.toRenaming.findings (Source.mk path content).lexemes = []) :
    let run := checkFiles o false colors files s' tally
    run.1.world.out = s'.world.out ∧
      run.2 = ({ tally with files := tally.files + files.length }, true) := by
  induction files generalizing paths s' tally with
  | nil => simp [checkFiles]
  | cons path files ih =>
    obtain ⟨content, hread, hfindings⟩ := hquiet path List.mem_cons_self
    obtain ⟨hout, report, hok, hissues⟩ :=
      checkFile_of_quiet colors h (hlog path List.mem_cons_self) hread hfindings
    obtain ⟨hrest, htally⟩ := ih (tally.add report false) (checked_checkFile colors h path)
      (fun path' hpath' => hlog path' (List.mem_cons_of_mem _ hpath'))
      (fun path' hpath' => hquiet path' (List.mem_cons_of_mem _ hpath'))
    rw [checkFiles_cons_ok files tally hok]
    refine ⟨hrest.trans hout, htally.trans ?_⟩
    have hcount : tally.files + 1 + files.length = tally.files + (path :: files).length := by
      rw [List.length_cons]
      omega
    simp [Tally.add, hissues, hcount]

/-- A check of files in which nothing is found says so, and ends well. -/
theorem check_of_quiet (hlog : s.LogsApart (s.world.tree.collect o.paths).files)
    (hcomplete : (s.world.tree.collect o.paths).complete = true)
    (hquiet : ∀ path ∈ (s.world.tree.collect o.paths).files, ∃ content,
      s.world.tree.read? path = some content ∧
        o.toRenaming.findings (Source.mk path content).lexemes = []) :
    (s.check o false).2 = .clean ∧ (s.check o false).1.world.out = s.world.out ++
      match o.format with
      | .text => ascii "Checked " ++ decimal (s.world.tree.collect o.paths).files.length ++
          ascii " file(s)" ++ ascii ", no issues found" ++ [Byte.lf]
      | .json => [] := by
  obtain ⟨s₁, hstart, hsession, hexit⟩ := s.check_spec o false
  obtain ⟨hout, hrun⟩ := checkFiles_of_quiet (o.colors && s.world.terminal.reportColors) {}
    (hstart.checked o.toRenaming false) hlog hquiet
  rw [hrun, hcomplete] at hexit
  refine ⟨hexit, ?_⟩
  have hstill := hout.trans hstart.world.out_eq
  have hsummary : Tally.summary { files := 0 + (s.world.tree.collect o.paths).files.length } false =
      ascii "Checked " ++ decimal (s.world.tree.collect o.paths).files.length ++
        ascii " file(s)" ++ ascii ", no issues found" := by
    rw [Int.zero_add]
    rfl
  rw [hsession, hrun]
  cases o.format with
  | text => exact congrArg₂ (· ++ ·) hstill (congrArg (· ++ _) hsummary)
  | json => exact (undisturbed_log _ _).world.out_eq.trans (hstill.trans (List.append_nil _).symm)

/-- A run that has no trouble fixing files leaves every one of them as fixing makes it. -/
theorem read?_of_checked {r : Renaming} (h : Checked r true files s s') (hlog : s.LogsApart files)
    (hnot : ∀ path ∈ files, ¬ s.world.tree.Refuses r true path) (hpath : path ∈ files)
    (hread : s.world.tree.read? path = some content) :
    s'.world.tree.read? path = some (r.fixed content) := by
  have hfind : ∀ place, s.world.tree.resolve path = .entry place → s'.world.tree.find? place =
      s.world.tree.entryAfter r true files place := fun place hplace =>
    h.find?_eq place (fun hmem => hlog path hpath place hmem hplace) fun hfix =>
      fits_of_not_refuses hnot hfix place
  rcases Tree.read?_after h.outline_eq hfind with
    hsame | ⟨-, -, content', -, -, -, -, -, -, hread', hfixed⟩
  · by_cases hne : r.fixed content = content
    · rw [hsame, hread, hne]
    · -- Fixing would change the file and does not refuse to, so the file can be written.
      have hchanged := (r.changed_lint_iff path content).mpr hne
      have htakes : s.world.tree.Takes path (r.lint true path content).1.after := by
        by_contra hrefused
        exact hnot path hpath (.inr ⟨rfl, content, hread, hchanged, hrefused⟩)
      obtain ⟨opened, hopen, -⟩ := Tree.takes_iff.mp htakes
      obtain ⟨-, hplace, ⟨access, hentry, hreadable, hwritable⟩ | ⟨-, rfl⟩⟩ :=
        Tree.open?_of_read? hread hopen
      · have hfixed : s'.world.tree.find? opened.1 = some (.file (r.fixed content) access) := by
          rw [hfind opened.1 hplace, Tree.entryAfter, if_pos ⟨rfl, path, hpath, hplace⟩, hentry]
          simp [Entry.fixed, hreadable, hwritable]
        rw [← Tree.resolve_congr h.outline_eq] at hplace
        rw [Tree.read?_of_find? hplace hfixed, if_pos hreadable]
      · exact absurd r.fixed_nil hne
  · obtain rfl := Option.some.inj (hread.symm.trans hread')
    exact hfixed

/-- If fixing ends well, every path led to something, and nothing is found in what is left. -/
theorem quiet_of_clean (hlog : s.LogsApart (s.world.tree.collect o.paths).files)
    (hne : o.old ≠ o.new) (hclean : (s.check o true).2 = .clean) :
    (s.world.tree.collect o.paths).complete = true ∧
      ∀ path ∈ (s.world.tree.collect o.paths).files, ∃ content,
        (s.check o true).1.world.tree.read? path = some content ∧
          o.toRenaming.findings (Source.mk path content).lexemes = [] := by
  obtain ⟨hquiet, hsettled⟩ := (check_exit true hlog).2.2.mp hclean
  have hnot : ∀ path ∈ (s.world.tree.collect o.paths).files,
      ¬ s.world.tree.Refuses o.toRenaming true path := fun path hpath h =>
    hquiet (.inr ⟨path, hpath, h⟩)
  refine ⟨Tree.complete_collect_iff.mpr fun path hpath => ?_, fun path hpath => ?_⟩
  · by_contra hneither
    exact hquiet (Or.inl ⟨path, hpath, not_or.mp hneither⟩)
  · obtain ⟨content, hread⟩ := Option.ne_none_iff_exists'.mp fun h => hnot path hpath (.inl h)
    have hgaveUp : (o.toRenaming.lint true path content).1.gaveUp = false := by
      by_contra hgaveUp
      exact hsettled ⟨path, hpath, content, hread, Bool.eq_true_of_not_eq_false hgaveUp⟩
    exact ⟨_, read?_of_checked (s.checked_check o true) hlog hnot hpath hread,
      Renaming.findings_fixed hne hgaveUp⟩

end Quiet

end Session

end TextDomain
