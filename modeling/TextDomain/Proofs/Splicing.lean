import TextDomain.Proofs.Lossless
import TextDomain.Report

/-!
# Splicing is exact

`Source.rewrite` is the content of a source in which tokens are replaced: its readings are joined as
they are, skipped pieces included, except that a token with a new text stands as that text. A draft
that holds these replacements (`Draft.Holds`) has exactly this content (`Draft.content_of_holds`).

Replacements cannot cancel out as long as all replaced tokens have one length and all new texts have
one (`Source.rewrite_eq_content_iff`).

Replacing a token changes what a draft holds at one position, and the last replacement of a position
counts (`lastText`).
-/

namespace TextDomain

/-- The text of some steps, in which a token with a new text stands as that text. -/
def weave (pairs : List (Step × Option Bytes)) : Bytes :=
  pairs.flatMap fun pair =>
    Trivia.join pair.1.reading.gap ++ pair.2.getD pair.1.lexeme.text

@[simp] theorem weave_nil : weave [] = [] := rfl

@[simp] theorem weave_cons (step : Step) (new : Option Bytes) (pairs : List (Step × Option Bytes)) :
    weave ((step, new) :: pairs) =
      Trivia.join step.reading.gap ++ new.getD step.lexeme.text ++ weave pairs := rfl

/-- Steps with the new text of each, by its position. -/
def Source.renewals (s : Source) (new : Nat → Option Bytes) : List (Step × Option Bytes) :=
  s.steps.mapIdx fun i step => (step, new i)

/-- The content in which the token at each position that `new` has a text for is replaced by that
text. All other bytes are as they were. -/
def Source.rewrite (s : Source) (new : Nat → Option Bytes) : Bytes :=
  weave (s.renewals new)

@[simp] theorem Source.map_fst_renewals (s : Source) (new : Nat → Option Bytes) :
    (s.renewals new).map Prod.fst = s.steps := by
  simp [renewals, List.mapIdx_eq_zipIdx_map, Function.comp_def]

/-- The tokens of a source without their offsets. -/
def Source.lexemes (s : Source) : List Lexeme :=
  s.tokens.map Token.toLexeme

theorem Source.lexemes_eq (s : Source) : s.lexemes = s.steps.map Step.lexeme := by
  rw [lexemes, tokens, List.map_map]
  rfl

/-! ## Splicing -/

/-- The edit that a new text of a step's token makes. -/
def Step.edit? (pair : Step × Option Bytes) : Option Edit :=
  pair.2.map fun text => ⟨pair.1.start, pair.1.lexeme.text.length, text⟩

theorem filterMap_edit?_cons (pair : Step × Option Bytes) (pairs : List (Step × Option Bytes)) :
    (pair :: pairs).filterMap Step.edit? =
      (Step.edit? pair).toList ++ pairs.filterMap Step.edit? := by
  rw [List.filterMap_cons]
  cases Step.edit? pair <;> rfl

/-- What stands before the first edit is kept. -/
theorem splice_append {start : Nat} {a b : Bytes} {edits : List Edit}
    (h : ∀ e ∈ edits, start + a.length ≤ e.offset) :
    splice start (a ++ b) edits = a ++ splice (start + a.length) b edits := by
  cases edits with
  | nil => rfl
  | cons e edits =>
    have he := h e List.mem_cons_self
    have hstop : start + a.length ≤ e.stop := Nat.le_trans he (Nat.le_add_right _ _)
    have htake : (a ++ b).take (e.offset - start) =
        a ++ b.take (e.offset - (start + a.length)) := by
      rw [List.take_append, List.take_of_length_le (by omega)]
      congr 2
      omega
    have hdrop : (a ++ b).drop (e.stop - start) = b.drop (e.stop - (start + a.length)) := by
      rw [List.drop_append, List.drop_of_length_le (by omega), List.nil_append]
      congr 1
      omega
    simp only [splice, htake, hdrop, List.append_assoc]

namespace Cursor

theorem offset_le_of_edit {c : Cursor} {pairs : List (Step × Option Bytes)}
    (h : pairs.map Prod.fst = c.steps) {e : Edit} (he : e ∈ pairs.filterMap Step.edit?) :
    c.offset ≤ e.offset := by
  obtain ⟨⟨step, new⟩, hmem, hedit⟩ := List.mem_filterMap.mp he
  obtain ⟨text, -, rfl⟩ := Option.map_eq_some_iff.mp hedit
  have hstep : step ∈ c.steps := h ▸ List.mem_map_of_mem hmem
  exact Nat.le_trans (offset_le_of_mem_steps hstep) (Nat.le_add_right _ _)

/-- One token is spliced in, or left as it is, and the rest is spliced on its own. -/
theorem splice_step (c : Cursor) (new : Option Bytes) (edits : List Edit)
    (h : ∀ e ∈ edits, c.next.offset ≤ e.offset) :
    splice c.offset c.rest ((Step.edit? (c.step, new)).toList ++ edits) =
      Trivia.join c.step.reading.gap ++ new.getD c.step.lexeme.text ++
        splice c.next.offset c.next.rest edits := by
  have hrest := c.gap_append_text_append_next
  cases new with
  | none =>
    rw [← List.append_assoc] at hrest
    have hlen : c.offset + (Trivia.join c.step.reading.gap ++ c.step.lexeme.text).length =
        c.next.offset := by
      rw [List.length_append]
      rfl
    rw [← hrest, Step.edit?, Option.map_none, Option.toList_none, List.nil_append,
      splice_append (by rwa [hlen]), hlen, Option.getD_none]
  | some text =>
    have hstart : c.step.start - c.offset = (Trivia.join c.step.reading.gap).length :=
      Nat.add_sub_cancel_left _ _
    have hstop : c.step.start + c.step.lexeme.text.length = c.next.offset := Nat.add_assoc _ _ _
    have hsize : c.next.offset - c.offset = c.step.reading.size := Nat.add_sub_cancel_left _ _
    simp only [Step.edit?, Option.map_some, Option.toList_some, List.singleton_append, splice,
      Edit.stop, hstop, hstart, hsize, Option.getD_some]
    congr 2
    rw [← hrest, List.take_left]

/-- Splicing new texts over the tokens of a text gives its readings joined with these texts. -/
theorem splice_edits (c : Cursor) {pairs : List (Step × Option Bytes)}
    (h : pairs.map Prod.fst = c.steps) :
    splice c.offset c.rest (pairs.filterMap Step.edit?) = weave pairs := by
  induction c using next_induction generalizing pairs with
  | last c heof =>
    rw [steps_of_eof heof] at h
    obtain ⟨⟨step, new⟩, rfl⟩ := List.map_eq_singleton_iff.mp h |>.imp fun _ h => h.1
    obtain rfl : step = c.step := by simpa using h
    rw [filterMap_edit?_cons, List.filterMap_nil, c.splice_step new [] (by simp),
      rest_next_of_eof heof]
    rfl
  | more c heof ih =>
    rw [steps_of_ne heof] at h
    obtain ⟨⟨step, new⟩, pairs, rfl, hstep, hpairs⟩ := List.map_eq_cons_iff.mp h
    obtain rfl : step = c.step := hstep
    rw [filterMap_edit?_cons, c.splice_step new _ fun e he => offset_le_of_edit hpairs he,
      ih hpairs, weave_cons]

end Cursor

/-- Without new texts the content is as it was. -/
theorem Source.rewrite_none (s : Source) : (s.rewrite fun _ => none) = s.content := by
  have hnone : (s.renewals fun _ => none) = s.steps.map fun step => (step, none) := by
    rw [renewals, List.mapIdx_eq_zipIdx_map, ← s.steps.zipIdx_map_fst 0, List.map_map]
    simp
  rw [rewrite, hnone, weave, List.flatMap_map]
  exact (Cursor.begin s.content).flatMap_text_steps

/-! ## When nothing changes -/

section

variable {n m : Nat} {pairs : List (Step × Option Bytes)}

/-- Where all renewed tokens have one length and all new texts another, the length of the text tells
how many tokens are renewed. -/
theorem length_weave (h : ∀ pair ∈ pairs, ∀ text, pair.2 = some text →
      pair.1.lexeme.text.length = n ∧ text.length = m) :
    (weave pairs).length + n * pairs.countP (·.2.isSome) =
      (weave (pairs.map fun pair => (pair.1, none))).length + m * pairs.countP (·.2.isSome) := by
  induction pairs with
  | nil => rfl
  | cons pair pairs ih =>
    obtain ⟨step, new⟩ := pair
    have hrest := ih fun pair hpair => h pair (List.mem_cons_of_mem _ hpair)
    cases new with
    | none =>
      simp only [List.map_cons, weave_cons, Option.getD_none, List.length_append,
        List.countP_cons, Option.isSome_none, Bool.false_eq_true, if_false, Nat.add_zero]
      omega
    | some text =>
      obtain ⟨hn, hm⟩ := h _ List.mem_cons_self text rfl
      simp only [List.map_cons, weave_cons, Option.getD_some, Option.getD_none,
        List.length_append, List.countP_cons, Option.isSome_some, if_true, Nat.mul_add, hn, hm]
      omega

/-- New texts as long as the old ones stand where these did. -/
theorem text_of_weave_eq (h : ∀ pair ∈ pairs, ∀ text, pair.2 = some text →
      pair.1.lexeme.text.length = text.length)
    (heq : weave pairs = weave (pairs.map fun pair => (pair.1, none))) :
    ∀ pair ∈ pairs, ∀ text, pair.2 = some text → pair.1.lexeme.text = text := by
  induction pairs with
  | nil => simp
  | cons pair pairs ih =>
    obtain ⟨step, new⟩ := pair
    simp only [List.map_cons, weave_cons, Option.getD_none] at heq
    have hsize : (Trivia.join step.reading.gap ++ new.getD step.lexeme.text).length =
        (Trivia.join step.reading.gap ++ step.lexeme.text).length := by
      cases new with
      | none => rfl
      | some text => simp [h _ List.mem_cons_self text rfl]
    obtain ⟨hhead, htail⟩ := List.append_inj heq hsize
    have hrest := ih (fun pair hpair => h pair (List.mem_cons_of_mem _ hpair)) htail
    intro pair hpair text htext
    rcases List.mem_cons.mp hpair with rfl | hpair
    · obtain rfl : new = some text := htext
      exact (List.append_cancel_left hhead).symm
    · exact hrest pair hpair text htext

/-- Replacements of different tokens cannot cancel out: the text stays as it was only if every
renewed token had its new text already. -/
theorem weave_eq_iff (h : ∀ pair ∈ pairs, ∀ text, pair.2 = some text →
      pair.1.lexeme.text.length = n ∧ text.length = m) :
    weave pairs = weave (pairs.map fun pair => (pair.1, none)) ↔
      ∀ pair ∈ pairs, ∀ text, pair.2 = some text → pair.1.lexeme.text = text := by
  constructor
  · intro heq
    rcases eq_or_ne n m with rfl | hne
    · refine text_of_weave_eq (fun pair hpair text htext => ?_) heq
      obtain ⟨hn, hm⟩ := h pair hpair text htext
      rw [hn, hm]
    · -- Texts of another length would show in the length of the whole.
      have hlength := length_weave h
      rw [heq] at hlength
      have hcount : pairs.countP (·.2.isSome) = 0 := by
        by_contra hpos
        exact hne (Nat.eq_of_mul_eq_mul_right (Nat.pos_of_ne_zero hpos)
          (Nat.add_left_cancel hlength))
      intro pair hpair text htext
      exact absurd (by rw [htext]; rfl) (List.countP_eq_zero.mp hcount pair hpair)
  · intro htexts
    rw [weave, weave, List.flatMap_map]
    refine List.flatMap_congr fun pair hpair => ?_
    cases hnew : pair.2 with
    | none => rfl
    | some text =>
      rw [htexts pair hpair text hnew]
      rfl

end

/-- New texts of one length, for tokens of one length, leave the content as it is only where they
are what the tokens were. -/
theorem Source.rewrite_eq_content_iff {s : Source} {new : Nat → Option Bytes} {n m : Nat}
    (h : ∀ i l text, s.lexemes[i]? = some l → new i = some text →
      l.text.length = n ∧ text.length = m) :
    s.rewrite new = s.content ↔
      ∀ i l text, s.lexemes[i]? = some l → new i = some text → l.text = text := by
  have hpairs : ∀ P : Lexeme → Bytes → Prop,
      (∀ pair ∈ s.renewals new, ∀ text, pair.2 = some text → P pair.1.lexeme text) ↔
        ∀ i l text, s.lexemes[i]? = some l → new i = some text → P l text := by
    intro P
    rw [lexemes_eq]
    simp only [List.mem_iff_getElem?, renewals, List.getElem?_mapIdx, List.getElem?_map,
      Option.map_eq_some_iff]
    constructor
    · rintro hP i l text ⟨step, hstep, rfl⟩ htext
      exact hP (step, new i) ⟨i, step, hstep, rfl⟩ text htext
    · rintro hP pair ⟨i, step, hstep, rfl⟩ text htext
      exact hP i step.lexeme text ⟨step, hstep, rfl⟩ htext
  have hnone : (s.renewals new).map (fun pair => (pair.1, none)) = s.renewals fun _ => none := by
    rw [renewals, renewals, List.mapIdx_eq_zipIdx_map, List.mapIdx_eq_zipIdx_map, List.map_map]
    rfl
  rw [← hpairs fun l text => l.text = text, ← weave_eq_iff ((hpairs _).mpr h), hnone]
  change _ = _ ↔ s.rewrite new = s.rewrite fun _ => none
  rw [rewrite_none]

/-! ## What a draft holds -/

namespace Draft

/-- A draft of `source` in which each token is to be replaced by what `new` has for its position. -/
structure Holds (d : Draft) (source : Source) (new : Nat → Option Bytes) : Prop where
  source_eq : d.source = source
  tokens_eq : d.tokens = source.tokens.toArray
  size_marks : d.marks.size = d.tokens.size
  getElem_marks : ∀ i (h : i < d.marks.size), d.marks[i] = new i

variable {d : Draft} {source : Source} {new : Nat → Option Bytes}

theorem holds_ofSource (source : Source) (accepting : Bool) (rule : Bytes) :
    (ofSource source accepting rule).Holds source fun _ => none where
  source_eq := rfl
  tokens_eq := rfl
  size_marks := by simp [ofSource]
  getElem_marks i h := by simp [ofSource]

theorem Holds.report (h : d.Holds source new) (position : Nat) (message code : Bytes) :
    (d.report position message code).2.Holds source new := by
  unfold Draft.report
  split <;> exact ⟨h.source_eq, h.tokens_eq, h.size_marks, h.getElem_marks⟩

theorem Holds.replace (h : d.Holds source new) (position : Nat) (text : Bytes) :
    (d.replace position text).Holds source (Function.update new position (some text)) := by
  unfold Draft.replace
  split
  · refine ⟨h.source_eq, h.tokens_eq, by simpa using h.size_marks, fun i hi => ?_⟩
    simp only [Array.size_setIfInBounds] at hi
    rw [Array.getElem_setIfInBounds hi, Function.update_apply]
    rcases eq_or_ne i position with rfl | hne
    · simp
    · rw [if_neg hne.symm, if_neg hne, h.getElem_marks i hi]
  · rename_i hout
    refine ⟨h.source_eq, h.tokens_eq, h.size_marks, fun i hi => ?_⟩
    have hsize := h.size_marks
    rw [Function.update_of_ne (by omega), h.getElem_marks i hi]

theorem Holds.toList_marks (h : d.Holds source new) :
    d.marks.toList = (List.range source.steps.length).map new := by
  have hsize : d.marks.size = source.steps.length := by
    rw [h.size_marks, h.tokens_eq]
    simp [Source.tokens]
  refine List.ext_getElem (by simp [hsize]) fun i hi _ => ?_
  simpa using h.getElem_marks i (by simpa using hi)

/-- A draft's content is its source with the replacements that it holds. -/
theorem content_of_holds (h : d.Holds source new) : d.content = source.rewrite new := by
  have hedits : d.edits = (source.renewals new).filterMap Step.edit? := by
    rw [edits, h.toList_marks, h.tokens_eq, Source.tokens, Source.renewals,
      List.mapIdx_eq_zipIdx_map, List.zipIdx_eq_zip_range', ← List.range_eq_range',
      List.filterMap_map, List.zip_map, List.filterMap_map]
    rfl
  rw [content, h.source_eq, hedits]
  exact (Cursor.begin source.content).splice_edits (source.map_fst_renewals new)

/-- The last text that some replacements give a position. -/
def lastText : List (Nat × Bytes) → Nat → Option Bytes
  | [], _ => none
  | (position, text) :: ops, i =>
    lastText ops i <|> if position = i then some text else none

theorem mem_of_lastText {ops : List (Nat × Bytes)} {i : Nat} {text : Bytes}
    (h : lastText ops i = some text) : (i, text) ∈ ops := by
  induction ops with
  | nil => cases h
  | cons op ops ih =>
    obtain ⟨position, first⟩ := op
    rw [lastText, Option.orElse_eq_orElse, Option.orElse_eq_or, Option.or_eq_some_iff] at h
    rcases h with hlater | ⟨-, hfirst⟩
    · exact List.mem_cons_of_mem _ (ih hlater)
    · split at hfirst
      · rename_i hposition
        cases hfirst
        rw [hposition]
        exact List.mem_cons_self
      · cases hfirst

theorem lastText_orElse_update (ops : List (Nat × Bytes)) (new : Nat → Option Bytes)
    (position : Nat) (text : Bytes) :
    (fun i => lastText ops i <|> Function.update new position (some text) i) =
      fun i => lastText ((position, text) :: ops) i <|> new i := by
  funext i
  rw [lastText, Function.update_apply]
  rcases eq_or_ne i position with rfl | hne
  · cases lastText ops i <;> simp
  · cases lastText ops i <;> simp [hne, hne.symm]

/-- Replacements made one after the other, the last of each position counts. -/
theorem holds_replaceAll (ops : List (Nat × Bytes)) (h : d.Holds source new) :
    (ops.foldl (fun d op => d.replace op.1 op.2) d).Holds source
      fun i => lastText ops i <|> new i := by
  induction ops generalizing d new with
  | nil => simpa [lastText] using h
  | cons op ops ih =>
    have hrest := ih (h.replace op.1 op.2)
    rwa [lastText_orElse_update] at hrest

end Draft

end TextDomain
