import Mathlib.Logic.Function.Iterate
import TextDomain.Proofs.Layout

/-!
# Reading gets on and stays at the end

A step moves the cursor over what it reads, so what lies behind the cursor and what is left of the
text always make up the same length (`Cursor.offset_add_length_iterate`). No cursor gets past the
end that way. A token that is not the end has text and moves the cursor on; the end leaves nothing
to read, and a cursor with nothing to read stays where it is (`Cursor.next_of_rest_nil`).

So reading more tokens than there are gives the end again and again
(`Cursor.take_length_steps_add`).
-/

namespace TextDomain

namespace Cursor

variable {c : Cursor}

/-! ## One step -/

theorem size_step_le (c : Cursor) : c.step.reading.size ≤ c.rest.length := by
  have hprefix := (text_read_isPrefix c.mode c.rest).length_le
  rwa [Reading.length_text] at hprefix

theorem offset_next (c : Cursor) : c.next.offset = c.offset + c.step.reading.size := rfl

theorem length_rest_next (c : Cursor) :
    c.next.rest.length = c.rest.length - c.step.reading.size :=
  List.length_drop

/-- A step leaves the end of the text where it is. -/
theorem offset_add_length_next (c : Cursor) :
    c.next.offset + c.next.rest.length = c.offset + c.rest.length := by
  have hsize := c.size_step_le
  rw [offset_next, length_rest_next]
  omega

/-- A token that is not the end moves the cursor on. -/
theorem offset_lt_next (h : c.step.lexeme.kind ≠ .eof) : c.offset < c.next.offset := by
  have hlength : c.next.rest.length < c.rest.length := length_rest_advance_lt h
  have hend := c.offset_add_length_next
  omega

/-! ## The end -/

/-- The step of a cursor that has come to the end, at an offset. -/
def endStep (offset : Nat) : Step :=
  ⟨offset, ⟨[], ⟨.eof, []⟩⟩⟩

@[simp] theorem token_endStep (offset : Nat) : (endStep offset).token = ⟨⟨.eof, []⟩, offset⟩ := rfl

@[simp] theorem error?_endStep (offset : Nat) : (endStep offset).error? = none := rfl

theorem step_of_rest_nil (h : c.rest = []) : c.step = endStep c.offset := by
  obtain ⟨mode, offset, rest⟩ := c
  obtain rfl : rest = [] := h
  cases mode with
  | markup => rfl
  | code =>
    have hrun : Trivia.run [] = [] := Trivia.run_of_none rfl
    simp [step, endStep, Mode.read, hrun, codeLexeme]

/-- With nothing left to read a cursor stays where it is. -/
theorem next_of_rest_nil (h : c.rest = []) : c.next = c := by
  rw [next, step_of_rest_nil h]
  obtain ⟨mode, offset, rest⟩ := c
  obtain rfl : rest = [] := h
  rfl

theorem take_of_rest_nil (h : c.rest = []) (n : Nat) :
    c.take n = List.replicate n (endStep c.offset) := by
  induction n with
  | zero => rfl
  | succ n ih => rw [take, next_of_rest_nil h, ih, step_of_rest_nil h, List.replicate_succ]

/-- The token at the end stands at the end of the text. -/
theorem token_of_eof (h : c.step.lexeme.kind = .eof) :
    c.step.token = ⟨⟨.eof, []⟩, c.offset + c.rest.length⟩ := by
  have hgap := drop_gapSize_of_eof h
  have hlexeme : c.step.lexeme = ⟨.eof, []⟩ := lexeme_read_of_drop hgap
  have hlength : c.rest.length ≤ c.step.reading.gapSize := List.drop_eq_nil_iff.mp hgap
  have hsize : c.step.reading.gapSize ≤ c.rest.length :=
    Nat.le_trans (Nat.le_add_right _ _) c.size_step_le
  rw [Step.token, hlexeme, Nat.le_antisymm hlength hsize]
  rfl

/-! ## Any number of steps -/

theorem offset_add_length_iterate (c : Cursor) (n : Nat) :
    (next^[n] c).offset + (next^[n] c).rest.length = c.offset + c.rest.length := by
  induction n with
  | zero => rfl
  | succ n ih => rw [Function.iterate_succ_apply', offset_add_length_next, ih]

theorem drop_offset_iterate {content : Bytes} (hc : content.drop c.offset = c.rest) (n : Nat) :
    content.drop (next^[n] c).offset = (next^[n] c).rest := by
  induction n with
  | zero => exact hc
  | succ n ih =>
    rw [Function.iterate_succ_apply']
    exact drop_offset_next ih

/-- Every step but the last takes a byte at least. -/
theorem length_steps_le (c : Cursor) : c.steps.length ≤ c.rest.length + 1 := by
  induction c using next_induction with
  | last c heof => simp [steps_of_eof heof]
  | more c heof ih =>
    have hlength : c.next.rest.length < c.rest.length := length_rest_advance_lt heof
    rw [steps_of_ne heof, List.length_cons]
    omega

/-- Steps that are taken beyond the last are all at the end. -/
theorem take_length_steps_add (c : Cursor) (n : Nat) :
    c.take (c.steps.length + n) =
      c.steps ++ List.replicate n (endStep (c.offset + c.rest.length)) := by
  induction c using next_induction with
  | last c heof =>
    have hrest := rest_next_of_eof heof
    have hoffset := c.offset_add_length_next
    rw [hrest, List.length_nil, Nat.add_zero] at hoffset
    rw [steps_of_eof heof, List.length_singleton, Nat.add_comm, take, take_of_rest_nil hrest,
      hoffset]
    rfl
  | more c heof ih =>
    rw [steps_of_ne heof, List.length_cons, Nat.add_right_comm, take, ih,
      offset_add_length_next]
    rfl

end Cursor

namespace Source

/-- The token at the end of a source. -/
def endToken (s : Source) : Token :=
  ⟨⟨.eof, []⟩, s.content.length⟩

theorem exists_tokens_eq (s : Source) :
    ∃ before, s.tokens = before ++ [s.endToken] ∧ ∀ t ∈ before, t.kind ≠ .eof := by
  obtain ⟨before, last, hsteps, hlast, hbefore⟩ := (Cursor.begin s.content).exists_last_step
  have hmem : s.steps[before.length]? = some last := by
    rw [steps, hsteps, List.getElem?_concat_length]
  obtain ⟨c, hc, rfl⟩ := exists_reaches hmem
  refine ⟨before.map Step.token, ?_, fun t ht => ?_⟩
  · have hlength := congrArg List.length hc.drop_offset
    have hoffset := hc.offset_le
    rw [List.length_drop] at hlength
    rw [tokens, steps, hsteps, List.map_append, List.map_singleton,
      Cursor.token_of_eof (congrArg Lexeme.kind hlast), ← hlength, Nat.add_sub_cancel' hoffset]
    rfl
  · obtain ⟨step, hstep, rfl⟩ := List.mem_map.mp ht
    exact hbefore step hstep

/-- Reading more tokens than there are adds the end, once for each. -/
theorem take_length_tokens_add (s : Source) (n : Nat) :
    (Cursor.begin s.content).take (s.tokens.length + n) =
      s.steps ++ List.replicate n (Cursor.endStep s.content.length) := by
  have htake := (Cursor.begin s.content).take_length_steps_add n
  have hend : (Cursor.begin s.content).offset + (Cursor.begin s.content).rest.length =
      s.content.length := Nat.zero_add _
  rw [hend] at htake
  rw [tokens, List.length_map]
  exact htake

/-- However many tokens are read, reading stays within the content and gets on until the end, which
comes after a bounded number of tokens and is all that is read from then on. -/
theorem reading_ends (s : Source) :
    (∀ n, let c := Cursor.next^[n] (Cursor.begin s.content)
      c.offset ≤ s.content.length ∧ c.rest = s.content.drop c.offset ∧
        (c.step.lexeme.kind ≠ .eof → c.offset < c.next.offset ∧ c.step.lexeme.text ≠ [])) ∧
    (∃ before, s.tokens = before ++ [s.endToken] ∧ ∀ t ∈ before, t.kind ≠ .eof) ∧
    s.tokens.length ≤ s.content.length + 1 ∧
    ∀ n, let steps := (Cursor.begin s.content).take (s.tokens.length + n)
      steps.map Step.token = s.tokens ++ List.replicate n s.endToken ∧
        steps.filterMap Step.error? = s.errors := by
  refine ⟨fun n => ?_, s.exists_tokens_eq, ?_, fun n => ?_⟩
  · intro c
    have hend : c.offset + c.rest.length = 0 + s.content.length :=
      (Cursor.begin s.content).offset_add_length_iterate n
    have hdrop := Cursor.drop_offset_iterate (c := Cursor.begin s.content) rfl n
    exact ⟨by omega, hdrop.symm, fun hne => ⟨Cursor.offset_lt_next hne, text_ne_nil_of_read hne⟩⟩
  · rw [tokens, List.length_map]
    exact (Cursor.begin s.content).length_steps_le
  · intro steps
    have hsteps : steps = s.steps ++ List.replicate n (Cursor.endStep s.content.length) :=
      s.take_length_tokens_add n
    rw [hsteps]
    refine ⟨?_, ?_⟩
    · rw [List.map_append, List.map_replicate]
      rfl
    · rw [List.filterMap_append, List.filterMap_replicate_of_none (Cursor.error?_endStep _),
        List.append_nil]
      rfl

/-- A comment without an end is reported once, however often the end is read after it. -/
theorem reading_ends_open_comment :
    let s := Source.mk (ascii "a.php") (ascii "<?php 'x' /* y")
    let c := Cursor.begin s.content
    (c.step.lexeme.kind ≠ .eof ∧ c.offset < c.next.offset ∧ c.step.lexeme.text ≠ []) ∧
      (c.take 5).map Step.token = s.tokens ++ [s.endToken, s.endToken] ∧
      (c.take 5).filterMap Step.error? = s.errors ∧ s.errors.length = 1 := by
  intro s c
  obtain ⟨hcursors, -, -, hbeyond⟩ := s.reading_ends
  have hfirst : c.step.lexeme.kind ≠ .eof := by decide +kernel
  have hlength : s.tokens.length = 3 := by decide +kernel
  obtain ⟨htokens, herrors⟩ := hbeyond 2
  rw [hlength] at htokens herrors
  exact ⟨⟨hfirst, (hcursors 0).2.2 hfirst⟩, htokens, herrors, by decide +kernel⟩

end Source

end TextDomain
