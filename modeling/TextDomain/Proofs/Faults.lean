import TextDomain.Proofs.Progress
import TextDomain.Proofs.Tags

/-!
# What is unfinished is what the content ends in

A string, a heredoc or a comment without an end takes all that is left of the text. So once a step
has an error the cursor has nothing left to read (`Cursor.rest_next_of_error?`), only the end comes
after it, and no source has more than one error (`Cursor.length_errors_le`).

`Source.Faults` says where the error is. An unfinished string or heredoc is the last token before
the end; an unfinished comment is the end of the gap before it.
-/

namespace TextDomain

/-! ## One step -/

/-- A token that is an error takes all of the text. -/
theorem text_codeLexeme_of_error {s : Bytes} (h : (codeLexeme s).kind = .error) :
    (codeLexeme s).text = s := by
  cases s with
  | nil => cases h
  | cons c s =>
    revert h
    refine codeLexeme_cases (motive := fun l => l.kind = .error → l.text = c :: s)
      (by simp) (by simp) (by simp) (by simp) (fun l hl h => ?_) (fun l hl h => ?_)
      fun _ _ _ h => ?_
    · obtain ⟨quote, rest, -, -, rfl | ⟨body, -, rfl⟩⟩ := Quoted.cases_of_quoted? hl
      · rfl
      · dsimp only [Quoted.kind] at h
        split at h <;> cases h
    · obtain ⟨header, -, rfl | ⟨body, -, rfl⟩⟩ := Heredoc.cases_of_heredoc? hl
      · rfl
      · cases h
    · exact absurd h (ne_of_mem_of_not_mem (Symbol.kind_mem c s) (by decide))

theorem Lexeme.exists_fault?_of_error {l : Lexeme} (h : l.kind = .error) :
    ∃ fault, l.fault? = some fault := by
  rw [fault?, if_neg (not_not.mpr h)]
  split <;> exact ⟨_, rfl⟩

theorem Lexeme.error_of_fault? {l : Lexeme} {fault : Fault} (h : l.fault? = some fault) :
    l.kind = .error ∧ (fault.code = ascii "L001" ∨ fault.code = ascii "L003") := by
  unfold fault? at h
  split at h
  · cases h
  · rename_i hkind
    refine ⟨not_not.mp hkind, ?_⟩
    split at h <;> obtain rfl := Option.some.inj h
    · exact Or.inr rfl
    · exact Or.inl rfl

/-- An error comes from a comment in the gap or from the token. -/
theorem Step.error?_cases {step : Step} {e : LexError} (h : step.error? = some e) :
    (∃ comment, Trivia.unclosed? step.reading.gap = some comment ∧
      e = ⟨.openComment, step.stop - comment.length, step.stop⟩) ∨
    step.lexeme.kind = .error ∧ (e.fault.code = ascii "L001" ∨ e.fault.code = ascii "L003") ∧
      e.offset = step.start ∧ e.stop = step.stop := by
  obtain ⟨⟨fault, length⟩, hfault, rfl⟩ := Option.map_eq_some_iff.mp h
  unfold Reading.fault? at hfault
  split at hfault
  · rename_i comment hopen
    cases hfault
    exact Or.inl ⟨comment, hopen, rfl⟩
  · obtain ⟨fault, hlexeme, hpair⟩ := Option.map_eq_some_iff.mp hfault
    cases hpair
    obtain ⟨hkind, hcode⟩ := Lexeme.error_of_fault? hlexeme
    exact Or.inr ⟨hkind, hcode, step.stop_sub_length, rfl⟩

namespace Cursor

variable {c : Cursor} {e : LexError}

theorem rest_next_of_error (h : c.step.lexeme.kind = .error) : c.next.rest = [] := by
  have hmode : c.mode = .code := mode_of_kind h (by decide)
  have hlexeme : c.step.lexeme = codeLexeme (c.rest.drop c.step.reading.gapSize) := by
    change (c.mode.read c.rest).lexeme = codeLexeme (c.rest.drop (c.mode.read c.rest).gapSize)
    rw [hmode]
    rfl
  change c.rest.drop (c.step.reading.gapSize + c.step.lexeme.text.length) = []
  rw [hlexeme] at h ⊢
  rw [← List.drop_drop, text_codeLexeme_of_error h, List.drop_length]

/-- After an error nothing is left to read. -/
theorem rest_next_of_error? (h : c.step.error? = some e) : c.next.rest = [] := by
  rcases Step.error?_cases h with ⟨comment, hopen, -⟩ | ⟨hkind, -⟩
  · obtain ⟨hend, -⟩ := (allFit_gap_read c.mode c.rest).ends_in_comment hopen
    exact drop_size_of_eof (congrArg Lexeme.kind (lexeme_read_of_drop hend))
  · exact rest_next_of_error hkind

theorem steps_of_rest_nil (h : c.rest = []) : c.steps = [endStep c.offset] := by
  have hstep := step_of_rest_nil h
  rw [steps_of_eof (by rw [hstep]; rfl), hstep]

/-! ## All steps -/

/-- No text has more than one error. -/
theorem length_errors_le (c : Cursor) : (c.steps.filterMap Step.error?).length ≤ 1 := by
  induction c using next_induction with
  | last c heof =>
    rw [steps_of_eof heof]
    exact List.length_filterMap_le _ _
  | more c heof ih =>
    rw [steps_of_ne heof]
    cases herror : c.step.error? with
    | none => rwa [List.filterMap_cons_none herror]
    | some e =>
      rw [List.filterMap_cons_some herror, steps_of_rest_nil (rest_next_of_error? herror)]
      exact Nat.le_refl 1

end Cursor

namespace Source

variable {s : Source} {i : Nat} {c : Cursor} {e : LexError}

/-- What the errors of a source are, and where. -/
structure Faults (s : Source) : Prop where
  atMostOne : s.errors.length ≤ 1
  /-- A token is an error exactly if a string or heredoc is reported. -/
  reported : (∃ t ∈ s.tokens, t.kind = .error) ↔
    ∃ e ∈ s.errors, e.fault.code = ascii "L001" ∨ e.fault.code = ascii "L003"
  /-- Such a token is the last before the end, takes the rest of the content, and is where the
  error starts. -/
  token : ∀ t ∈ s.tokens, t.kind = .error → t.stop = s.content.length ∧
    (∃ before, s.tokens = before ++ [t, s.endToken]) ∧
    ∃ e, s.errors = [e] ∧ (e.span s.name s.lineStarts).start = s.location t.offset
  /-- A comment is reported exactly if the text after the last token ends in one without an end. -/
  unfinished : (∃ e ∈ s.errors, e.fault.code = ascii "L002") ↔
    ∃ gap, s.gaps.getLast? = some gap ∧ Unfinished gap
  /-- That comment is where the error starts. -/
  comment : ∀ e ∈ s.errors, e.fault.code = ascii "L002" → ∃ before comment offset,
    s.gaps.getLast? = some (before ++ comment) ∧ Skipped before comment ∧ IsOpenComment comment ∧
    s.content.drop offset = comment ∧ (e.span s.name s.lineStarts).start = s.location offset
  stop : ∀ e ∈ s.errors, (e.span s.name s.lineStarts).stop = s.location s.content.length

theorem exists_reaches_error (h : e ∈ s.errors) : ∃ i c, s.Reaches (s.steps.take i) c ∧
    c.step.error? = some e ∧ c.steps = s.steps.drop i := by
  obtain ⟨step, hmem, herror⟩ := List.mem_filterMap.mp h
  obtain ⟨i, hi⟩ := List.mem_iff_getElem?.mp hmem
  obtain ⟨c, hc, rfl, hsteps⟩ := exists_reaches_steps hi
  exact ⟨i, c, hc, herror, hsteps⟩

theorem errors_eq_singleton (h : e ∈ s.errors) : s.errors = [e] := by
  have hle : s.errors.length ≤ 1 := (Cursor.begin s.content).length_errors_le
  obtain ⟨e', he'⟩ := List.length_eq_one_iff.mp (Nat.le_antisymm hle (List.length_pos_of_mem h))
  rw [he', List.mem_singleton] at h
  rw [he', h]

/-- A cursor with nothing left to read after its step makes the step at the end of the content. -/
theorem Reaches.stop_of_rest_nil {done : List Step} (h : s.Reaches done c)
    (hrest : c.next.rest = []) : c.step.stop = s.content.length := by
  have hdrop : s.content.drop c.step.stop = [] := h.next.drop_offset.trans hrest
  exact Nat.le_antisymm h.next.offset_le (List.drop_eq_nil_iff.mp hdrop)

theorem getElem?_of_steps_eq_drop (h : c.steps = s.steps.drop i) : s.steps[i]? = some c.step := by
  have hzero := c.getElem?_steps_zero
  rwa [h, List.getElem?_drop, Nat.add_zero] at hzero

/-- The error of a token starts with the token. -/
theorem exists_error_of_kind (hsteps : c.steps = s.steps.drop i)
    (hkind : c.step.lexeme.kind = .error) : ∃ e, s.errors = [e] ∧ e.offset = c.step.start ∧
      (e.fault.code = ascii "L001" ∨ e.fault.code = ascii "L003") := by
  have hi := getElem?_of_steps_eq_drop hsteps
  obtain ⟨fault, hfault⟩ := Lexeme.exists_fault?_of_error hkind
  have herror := error?_of_ne hi (by rw [hkind]; decide)
  rw [hfault, Option.map_some] at herror
  have hmem := List.mem_filterMap.mpr ⟨_, List.mem_of_getElem? hi, herror⟩
  exact ⟨_, errors_eq_singleton hmem, rfl, (Lexeme.error_of_fault? hfault).2⟩

/-- After a token that is an error there is only the end. -/
theorem Reaches.tokens_of_kind (h : s.Reaches (s.steps.take i) c)
    (hsteps : c.steps = s.steps.drop i) (hkind : c.step.lexeme.kind = .error) :
    s.tokens = (s.steps.take i).map Step.token ++ [c.step.token, s.endToken] := by
  have hrest : c.next.rest = [] := Cursor.rest_next_of_error hkind
  have hoffset : c.next.offset = s.content.length := h.stop_of_rest_nil hrest
  have hne : c.step.lexeme.kind ≠ .eof := by
    rw [hkind]
    decide
  have hlater : s.steps.drop i = [c.step, Cursor.endStep s.content.length] := by
    rw [← hsteps, Cursor.steps_of_ne hne, Cursor.steps_of_rest_nil hrest, hoffset]
  calc s.tokens = (s.steps.take i ++ s.steps.drop i).map Step.token := by
        rw [List.take_append_drop]
        rfl
    _ = _ := by
        rw [hlater, List.map_append]
        rfl

/-- A comment without an end is the end of the last gap, and what its error points to. -/
theorem Reaches.comment_of_unclosed? (h : s.Reaches (s.steps.take i) c)
    (hsteps : c.steps = s.steps.drop i) {comment : Bytes}
    (hopen : Trivia.unclosed? c.step.reading.gap = some comment) :
    ∃ before, s.gaps.getLast? = some (before ++ comment) ∧ Skipped before comment ∧
      IsOpenComment comment ∧ s.content.drop (c.step.stop - comment.length) = comment := by
  obtain ⟨hend, hcomment, before, hjoin, hbefore⟩ :=
    (allFit_gap_read c.mode c.rest).ends_in_comment hopen
  have hlexeme : c.step.lexeme = ⟨.eof, []⟩ := lexeme_read_of_drop hend
  have heof : c.step.lexeme.kind = .eof := congrArg Lexeme.kind hlexeme
  have hrest : c.rest = before ++ comment := by
    rw [← c.gap_append_text_append_next, hlexeme, Cursor.rest_next_of_eof heof]
    simp only [List.append_nil]
    exact hjoin
  refine ⟨before, ?_, hbefore, hcomment, ?_⟩
  · rw [gaps_eq, List.getLast?_map, ← List.take_append_drop i s.steps, ← hsteps,
      Cursor.steps_of_eof heof, List.getLast?_concat, Option.map_some, ← hjoin]
    rfl
  · have hstop : c.step.stop = c.offset + (before ++ comment).length := by
      rw [h.stop_of_rest_nil (Cursor.rest_next_of_eof heof), ← hrest, ← h.drop_offset,
        List.length_drop]
      have hle := h.offset_le
      omega
    rw [hstop, List.length_append, ← Nat.add_assoc, Nat.add_sub_cancel, ← List.drop_drop,
      h.drop_offset, hrest, List.drop_left]

/-- There is at most one error, and it is about what the content ends in. -/
theorem faults (s : Source) : s.Faults where
  atMostOne := (Cursor.begin s.content).length_errors_le
  reported := by
    constructor
    · rintro ⟨t, ht, hkind⟩
      obtain ⟨i, c, -, rfl, hsteps⟩ := exists_reaches_of_mem ht
      obtain ⟨e, herrors, -, hcode⟩ := exists_error_of_kind hsteps hkind
      exact ⟨e, herrors ▸ List.mem_singleton_self e, hcode⟩
    · rintro ⟨e, he, hcode⟩
      obtain ⟨i, c, -, herror, hsteps⟩ := exists_reaches_error he
      rcases Step.error?_cases herror with ⟨comment, -, rfl⟩ | ⟨hkind, -⟩
      · exact absurd (show Fault.openComment.code = _ ∨ Fault.openComment.code = _ from hcode)
          (by decide)
      · refine ⟨c.step.token, ?_, hkind⟩
        exact List.mem_map_of_mem (List.mem_of_getElem? (getElem?_of_steps_eq_drop hsteps))
  token := by
    intro t ht hkind
    obtain ⟨i, c, hc, rfl, hsteps⟩ := exists_reaches_of_mem ht
    obtain ⟨e, herrors, hoffset, -⟩ := exists_error_of_kind hsteps hkind
    refine ⟨?_, ⟨_, hc.tokens_of_kind hsteps hkind⟩, e, herrors, ?_⟩
    · rw [Step.stop_token]
      exact hc.stop_of_rest_nil (Cursor.rest_next_of_error hkind)
    · exact congrArg s.location hoffset
  unfinished := by
    rw [exists_error_iff, steps, Cursor.exists_unclosed_iff, gaps_eq, List.getLast?_map]
    simp [steps]
  comment := by
    intro e he hcode
    obtain ⟨i, c, hc, herror, hsteps⟩ := exists_reaches_error he
    rcases Step.error?_cases herror with ⟨comment, hopen, rfl⟩ | ⟨-, hother, -⟩
    · obtain ⟨before, hgap, hbefore, hcomment, hdrop⟩ := hc.comment_of_unclosed? hsteps hopen
      exact ⟨before, comment, _, hgap, hbefore, hcomment, hdrop, rfl⟩
    · rw [hcode] at hother
      exact absurd hother (by decide)
  stop := by
    intro e he
    obtain ⟨i, c, hc, herror, -⟩ := exists_reaches_error he
    have hstop : e.stop = c.step.stop := by
      rcases Step.error?_cases herror with ⟨comment, -, rfl⟩ | ⟨-, -, -, hstop⟩
      · rfl
      · exact hstop
    rw [hc.stop_of_rest_nil (Cursor.rest_next_of_error? herror)] at hstop
    exact congrArg s.location hstop

/-- A string without an end after a whole comment, and the other way round. -/
theorem faults_string_and_comment :
    let s := Source.mk (ascii "a.php") (ascii "<?php /* a */ f('b\n")
    let t : Token := ⟨⟨.error, ascii "'b\n"⟩, 16⟩
    let u := Source.mk (ascii "b.php") (ascii "<?php 'a' // /*\n /*/ b")
    t ∈ s.tokens ∧ s.errors.map (·.fault.code) = [ascii "L001"] ∧ t.stop = s.content.length ∧
      (∃ before, s.tokens = before ++ [t, s.endToken]) ∧
      u.errors = [⟨.openComment, 17, 22⟩] ∧
      ((⟨.openComment, 17, 22⟩ : LexError).span u.name u.lineStarts).stop = u.location 22 ∧
      ∃ before comment offset, u.gaps.getLast? = some (before ++ comment) ∧
        Skipped before comment ∧ IsOpenComment comment ∧ u.content.drop offset = comment ∧
        u.location 17 = u.location offset := by
  intro s t u
  have ht : t ∈ s.tokens := by decide +kernel
  have hu : u.errors = [⟨.openComment, 17, 22⟩] := by decide +kernel
  have hmem : ⟨.openComment, 17, 22⟩ ∈ u.errors := hu ▸ List.mem_singleton_self _
  obtain ⟨hstop, htokens, -⟩ := s.faults.token t ht rfl
  exact ⟨ht, by decide +kernel, hstop, htokens, hu, u.faults.stop _ hmem,
    u.faults.comment _ hmem rfl⟩

end Source

end TextDomain
