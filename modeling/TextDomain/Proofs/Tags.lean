import TextDomain.Proofs.Layout

/-!
# Markup and code take turns

Outside of code there are only markup, open tags and the end; in code there is neither markup nor an
open tag (`Source.Alternates`). Which of the two a place is in depends on the tokens before it alone
(`Opened`), since only tags change the mode.

What a tag looks like is said by `IsOpenTag` and `IsCloseTag`, each before the text that follows it.
An open tag is read exactly where there is one (`Markup.openTag?_eq_some_iff`). Markup goes up to
the next open tag, so that none starts within it (`Markup.openTag?_drop_of_lt`).
-/

namespace TextDomain

/-- An open tag before `rest`: `<?=`, or `<?php` in any letter case, if the text ends there or a NUL
byte, a space, a tab or a byte of a line end follows. -/
def IsOpenTag (tag rest : Bytes) : Prop :=
  tag = ascii "<?=" ∨
    (∃ p h q, tag = ascii "<?" ++ [p, h, q] ∧ p ∈ ascii "pP" ∧ h ∈ ascii "hH" ∧ q ∈ ascii "pP") ∧
    ∀ c ∈ rest.head?, c ∈ [Byte.nul, Byte.space, Byte.tab, Byte.cr, Byte.lf]

/-- A close tag before `rest`: `?>` and the line end after it, if there is one. -/
def IsCloseTag (tag rest : Bytes) : Prop :=
  tag = ascii "?>" ++ [Byte.lf] ∨ tag = ascii "?>" ++ [Byte.cr, Byte.lf] ∨
    tag = ascii "?>" ∧ rest.head? ≠ some Byte.lf ∧ ¬ [Byte.cr, Byte.lf] <+: rest

/-! ## Letter case -/

namespace Byte

theorem lower_eq_letter_iff {c l : UInt8} (hl : 0x61 ≤ l ∧ l ≤ 0x7a) :
    lower c = l ↔ c = l ∨ c = l - 0x20 := by
  simp only [lower, Bool.and_eq_true, decide_eq_true_eq]
  split <;> grind

theorem lower_eq_iff {c l : UInt8} (hl : l < 0x41) : lower c = l ↔ c = l := by
  simp only [lower, Bool.and_eq_true, decide_eq_true_eq]
  split <;> grind

theorem lower_eq_p_iff {c : UInt8} : lower c = 0x70 ↔ c ∈ ascii "pP" := by
  change _ ↔ c ∈ [0x70, 0x50]
  rw [lower_eq_letter_iff (by decide), List.mem_pair]
  rfl

theorem lower_eq_h_iff {c : UInt8} : lower c = 0x68 ↔ c ∈ ascii "hH" := by
  change _ ↔ c ∈ [0x68, 0x48]
  rw [lower_eq_letter_iff (by decide), List.mem_pair]
  rfl

end Byte

namespace Markup

/-! ## Open tags -/

theorem map_lower_eq_iff {tag : Bytes} : tag.map Byte.lower = ascii "<?php" ↔
    ∃ p h q, tag = ascii "<?" ++ [p, h, q] ∧ p ∈ ascii "pP" ∧ h ∈ ascii "hH" ∧ q ∈ ascii "pP" := by
  have hless : ∀ c, Byte.lower c = 0x3c ↔ c = 0x3c := fun _ => Byte.lower_eq_iff (by decide)
  have hquestion : ∀ c, Byte.lower c = 0x3f ↔ c = 0x3f := fun _ => Byte.lower_eq_iff (by decide)
  change tag.map Byte.lower = [0x3c, 0x3f, 0x70, 0x68, 0x70] ↔ _
  simp only [List.map_eq_cons_iff, List.map_eq_nil_iff, Byte.lower_eq_p_iff, Byte.lower_eq_h_iff,
    hless, hquestion]
  constructor
  · rintro ⟨_, _, rfl, rfl, _, _, rfl, rfl, p, _, rfl, hp, h, _, rfl, hh, q, _, rfl, hq, rfl⟩
    exact ⟨p, h, q, rfl, hp, hh, hq⟩
  · rintro ⟨p, h, q, rfl, hp, hh, hq⟩
    exact ⟨_, _, rfl, rfl, _, _, rfl, rfl, p, _, rfl, hp, h, _, rfl, hh, q, _, rfl, hq, rfl⟩

theorem endsTag_iff {rest : Bytes} : endsTag rest = true ↔
    ∀ c ∈ rest.head?, c ∈ [Byte.nul, Byte.space, Byte.tab, Byte.cr, Byte.lf] := by
  cases rest with
  | nil => simp [endsTag]
  | cons c rest =>
    simp only [endsTag, Bool.or_eq_true, beq_iff_eq, List.head?_cons, Option.mem_some_iff,
      forall_eq', List.mem_cons, List.not_mem_nil, or_false]
    tauto

/-- An open tag is read exactly where there is one. -/
theorem openTag?_eq_some_iff {s tag : Bytes} :
    openTag? s = some tag ↔ ∃ rest, s = tag ++ rest ∧ IsOpenTag tag rest := by
  constructor
  · intro h
    unfold openTag? at h
    split at h
    · rename_i hshort
      obtain ⟨rest, rfl⟩ := List.isPrefixOf_iff_prefix.mp hshort
      obtain rfl := Option.some.inj h
      exact ⟨rest, rfl, Or.inl rfl⟩
    · split at h
      · rename_i hlong
        obtain rfl := Option.some.inj h
        exact ⟨s.drop 5, (List.take_append_drop 5 s).symm,
          Or.inr ⟨map_lower_eq_iff.mp hlong.1, endsTag_iff.mp hlong.2⟩⟩
      · cases h
  · rintro ⟨rest, rfl, rfl | ⟨hlong, hrest⟩⟩
    · rfl
    · have hlower := map_lower_eq_iff.mpr hlong
      obtain ⟨p, h, q, rfl, hp, -, -⟩ := hlong
      have hshort : ¬ (ascii "<?=").isPrefixOf (ascii "<?" ++ [p, h, q] ++ rest) = true := by
        have hequals : Byte.equals ≠ p := by
          rintro rfl
          exact absurd hp (by decide)
        change ¬ (Byte.equals == p && _) = true
        rw [beq_false_of_ne hequals]
        exact Bool.false_ne_true
      exact (if_neg hshort).trans (if_pos ⟨hlower, endsTag_iff.mpr hrest⟩)

theorem openTag?_eq_none_iff {s : Bytes} :
    openTag? s = none ↔ ∀ tag rest, s = tag ++ rest → ¬ IsOpenTag tag rest := by
  simp only [Option.eq_none_iff_forall_ne_some, ne_eq, openTag?_eq_some_iff, not_exists, not_and]

/-! ## Markup -/

/-- No open tag starts within markup. -/
theorem openTag?_drop_of_lt : ∀ {s : Bytes} {i : Nat}, i < (html s).length →
    openTag? (s.drop i) = none
  | [], _, h => absurd h (Nat.not_lt_zero _)
  | c :: s, i, h => by
    rw [html] at h
    split at h
    · exact absurd h (Nat.not_lt_zero _)
    · rename_i htag
      cases i with
      | zero => exact Option.not_isSome_iff_eq_none.mp htag
      | succ i => exact openTag?_drop_of_lt (s := s) (Nat.lt_of_succ_lt_succ h)

/-- After markup comes an open tag or the end. -/
theorem drop_length_html : ∀ s : Bytes, s.drop (html s).length = [] ∨
    ∃ tag, openTag? (s.drop (html s).length) = some tag
  | [] => Or.inl rfl
  | c :: s => by
    rw [html]
    split
    · rename_i htag
      exact Or.inr (Option.isSome_iff_exists.mp htag)
    · exact drop_length_html s

theorem markupLexeme_of_openTag? {s tag : Bytes} (h : openTag? s = some tag) :
    markupLexeme s = ⟨.openTag, tag⟩ := by
  cases s with
  | nil => cases h
  | cons c s => simp only [markupLexeme, h]

theorem markupLexeme_of_none {s : Bytes} (hs : s ≠ []) (h : openTag? s = none) :
    markupLexeme s = ⟨.inlineHtml, html s⟩ := by
  cases s with
  | nil => exact absurd rfl hs
  | cons c s => simp only [markupLexeme, h]

/-- What is read in markup: the end, an open tag, or the markup before one. -/
theorem markupLexeme_cases (s : Bytes) : s = [] ∧ markupLexeme s = ⟨.eof, []⟩ ∨
    (∃ tag, openTag? s = some tag ∧ markupLexeme s = ⟨.openTag, tag⟩) ∨
    s ≠ [] ∧ openTag? s = none ∧ markupLexeme s = ⟨.inlineHtml, html s⟩ := by
  rcases eq_or_ne s [] with rfl | hs
  · exact Or.inl ⟨rfl, rfl⟩
  · cases htag : openTag? s with
    | some tag => exact Or.inr (Or.inl ⟨tag, rfl, markupLexeme_of_openTag? htag⟩)
    | none => exact Or.inr (Or.inr ⟨hs, rfl, markupLexeme_of_none hs htag⟩)

/-! ## Close tags -/

theorem isCloseTag_of_closeTag? {s tag : Bytes} (h : closeTag? s = some tag) :
    ∃ rest, s = tag ++ rest ∧ IsCloseTag tag rest := by
  obtain ⟨after, hafter, rfl⟩ := Option.map_eq_some_iff.mp h
  obtain rfl := Bytes.eq_of_after? hafter
  obtain ⟨rest, hrest⟩ := lineEnd_isPrefix after
  refine ⟨rest, by rw [List.append_assoc, hrest], ?_⟩
  unfold lineEnd at hrest ⊢
  split
  · exact Or.inl rfl
  · rename_i hlf
    split
    · exact Or.inr (Or.inl rfl)
    · rename_i hcrlf
      rw [if_neg hlf, if_neg hcrlf, List.nil_append] at hrest
      rw [hrest, List.append_nil]
      have hprefix : ¬ [Byte.cr, Byte.lf] <+: after := fun h =>
        hcrlf (List.isPrefixOf_iff_prefix.mpr h)
      exact Or.inr (Or.inr ⟨rfl, hlf, hprefix⟩)

theorem closeTag?_of_kind {s : Bytes} (h : (codeLexeme s).kind = .closeTag) :
    closeTag? s = some (codeLexeme s).text := by
  cases s with
  | nil => cases h
  | cons c s =>
    revert h
    exact codeLexeme_kind_cases
      (motive := fun l => l.kind = .closeTag → closeTag? (c :: s) = some l.text)
      (fun _ htag _ => htag) (by simp) (by simp) (by simp)
      fun _ hkind h => absurd h (ne_of_mem_of_not_mem hkind (by decide))

end Markup

/-! ## Tokens of either mode -/

/-- Outside of code only markup, open tags and the end are read. -/
theorem kind_read_markup (s : Bytes) :
    (Mode.markup.read s).lexeme.kind ∈ [.inlineHtml, .openTag, .eof] := by
  change (markupLexeme s).kind ∈ _
  obtain ⟨-, hl⟩ | ⟨tag, -, hl⟩ | ⟨-, -, hl⟩ := Markup.markupLexeme_cases s <;> rw [hl] <;> simp

/-- Markup and open tags are read outside of code only. -/
theorem mode_of_kind_mem {mode : Mode} {s : Bytes}
    (h : (mode.read s).lexeme.kind ∈ [.inlineHtml, .openTag]) : mode = .markup := by
  cases mode with
  | markup => rfl
  | code =>
    change (codeLexeme (s.drop (Mode.code.read s).gapSize)).kind ∈ _ at h
    cases hrest : s.drop (Mode.code.read s).gapSize with
    | nil =>
      rw [hrest] at h
      exact absurd h (by decide)
    | cons c t =>
      rw [hrest] at h
      have hmem := kind_codeLexeme_mem c t
      rcases List.mem_pair.mp h with hkind | hkind <;> rw [hkind] at hmem <;>
        exact absurd hmem (by decide)

namespace Cursor

variable {c : Cursor}

theorem step_of_markup (h : c.mode = .markup) : c.step = ⟨c.offset, ⟨[], markupLexeme c.rest⟩⟩ := by
  rw [step, h]
  rfl

theorem lexeme_of_markup (h : c.mode = .markup) : c.step.lexeme = markupLexeme c.rest := by
  rw [step_of_markup h]
  rfl

/-- All tokens but markup, open tags and the end are read in code. -/
theorem mode_of_kind {kind : Kind} (h : c.step.lexeme.kind = kind)
    (hkind : kind ∉ [.inlineHtml, .openTag, .eof]) : c.mode = .code := by
  subst h
  cases hmode : c.mode with
  | markup =>
    change (c.mode.read c.rest).lexeme.kind ∉ _ at hkind
    rw [hmode] at hkind
    exact absurd (kind_read_markup c.rest) hkind
  | code => rfl

theorem openTag?_of_kind (h : c.step.lexeme.kind = .openTag) :
    c.mode = .markup ∧ Markup.openTag? c.rest = some c.step.lexeme.text := by
  have hmode : c.mode = .markup := mode_of_kind_mem (s := c.rest) (List.mem_pair.mpr (Or.inr h))
  rw [lexeme_of_markup hmode] at h ⊢
  obtain ⟨-, hl⟩ | ⟨tag, htag, hl⟩ | ⟨-, -, hl⟩ := Markup.markupLexeme_cases c.rest <;>
    rw [hl] at h ⊢
  · cases h
  · exact ⟨hmode, htag⟩
  · cases h

theorem html_of_kind (h : c.step.lexeme.kind = .inlineHtml) :
    c.mode = .markup ∧ c.step.lexeme = ⟨.inlineHtml, Markup.html c.rest⟩ := by
  have hmode : c.mode = .markup := mode_of_kind_mem (s := c.rest) (List.mem_pair.mpr (Or.inl h))
  rw [lexeme_of_markup hmode] at h ⊢
  obtain ⟨-, hl⟩ | ⟨tag, -, hl⟩ | ⟨-, -, hl⟩ := Markup.markupLexeme_cases c.rest <;>
    rw [hl] at h ⊢
  · cases h
  · cases h
  · exact ⟨hmode, rfl⟩

theorem rest_next_of_markup (h : c.mode = .markup) :
    c.next.rest = c.rest.drop c.step.lexeme.text.length := by
  change c.rest.drop (c.step.reading.gapSize + c.step.lexeme.text.length) = _
  rw [step_of_markup h]
  exact congrArg (c.rest.drop ·) (Nat.zero_add _)

/-- After markup comes an open tag or the end. -/
theorem kind_next_of_html (h : c.step.lexeme.kind = .inlineHtml) :
    c.next.step.lexeme.kind ∈ [.openTag, .eof] := by
  obtain ⟨hmode, hlexeme⟩ := html_of_kind h
  have hnext : c.next.mode = .markup := by
    change c.step.lexeme.kind.modeAfter c.mode = _
    rw [h, hmode]
    rfl
  rw [lexeme_of_markup hnext, rest_next_of_markup hmode, hlexeme]
  rcases Markup.drop_length_html c.rest with hend | ⟨tag, htag⟩
  · rw [hend]
    decide
  · rw [Markup.markupLexeme_of_openTag? htag]
    exact List.mem_cons_self

end Cursor

namespace Source

variable {s : Source} {i : Nat} {c : Cursor}

/-- How markup and code take turns in a source. -/
structure Alternates (s : Source) : Prop where
  /-- Before the first open tag and after a close tag there are only markup, an open tag and the
  end. -/
  markup : ∀ (i : Nat) (t : Token), s.tokens[i]? = some t → ¬ Opened (s.tokens.take i) →
    t.kind ∈ [.inlineHtml, .openTag, .eof]
  /-- After an open tag there is neither until a close tag. -/
  code : ∀ (i : Nat) (t : Token), s.tokens[i]? = some t → Opened (s.tokens.take i) →
    t.kind ∉ [.inlineHtml, .openTag]
  /-- Markup has text, goes on to an open tag or the end, and has no open tag within it. -/
  inlineHtml : ∀ (i : Nat) (t : Token), s.tokens[i]? = some t → t.kind = .inlineHtml →
    t.text ≠ [] ∧ (∃ u, s.tokens[i + 1]? = some u ∧ u.kind ∈ [.openTag, .eof]) ∧
    ∀ offset, t.offset ≤ offset → offset < t.stop →
      ∀ tag rest, s.content.drop offset = tag ++ rest → ¬ IsOpenTag tag rest
  openTag : ∀ t ∈ s.tokens, t.kind = .openTag → IsOpenTag t.text (s.content.drop t.stop)
  closeTag : ∀ t ∈ s.tokens, t.kind = .closeTag → IsCloseTag t.text (s.content.drop t.stop)

theorem exists_reaches_token {t : Token} (h : s.tokens[i]? = some t) :
    ∃ c, s.Reaches (s.steps.take i) c ∧ c.step.token = t ∧ c.steps = s.steps.drop i := by
  rw [tokens, List.getElem?_map, Option.map_eq_some_iff] at h
  obtain ⟨step, hstep, rfl⟩ := h
  obtain ⟨c, hc, rfl, hsteps⟩ := exists_reaches_steps hstep
  exact ⟨c, hc, rfl, hsteps⟩

theorem exists_reaches_of_mem {t : Token} (h : t ∈ s.tokens) : ∃ i c,
    s.Reaches (s.steps.take i) c ∧ c.step.token = t ∧ c.steps = s.steps.drop i := by
  obtain ⟨i, hi⟩ := List.mem_iff_getElem?.mp h
  exact ⟨i, exists_reaches_token hi⟩

theorem Reaches.isOpenTag (h : s.Reaches (s.steps.take i) c)
    (hkind : c.step.lexeme.kind = .openTag) :
    IsOpenTag c.step.lexeme.text (s.content.drop c.step.stop) := by
  obtain ⟨hmode, htag⟩ := Cursor.openTag?_of_kind hkind
  obtain ⟨rest, hrest, hopen⟩ := Markup.openTag?_eq_some_iff.mp htag
  have hstart : s.content.drop c.step.start = c.rest := by
    rw [h.drop_start, Cursor.step_of_markup hmode]
    rfl
  rw [h.drop_start_eq_append, hrest] at hstart
  rwa [List.append_cancel_left hstart]

theorem Reaches.isCloseTag (h : s.Reaches (s.steps.take i) c)
    (hkind : c.step.lexeme.kind = .closeTag) :
    IsCloseTag c.step.lexeme.text (s.content.drop c.step.stop) := by
  have hlexeme := h.lexeme_of_code (Cursor.mode_of_kind hkind (by decide))
  rw [hlexeme] at hkind
  obtain ⟨rest, hrest, hclose⟩ := Markup.isCloseTag_of_closeTag? (Markup.closeTag?_of_kind hkind)
  rw [← hlexeme] at hrest hclose
  rw [h.drop_start_eq_append] at hrest
  rwa [List.append_cancel_left hrest]

/-- No open tag starts at a byte of markup. -/
theorem Reaches.not_isOpenTag (h : s.Reaches (s.steps.take i) c)
    (hkind : c.step.lexeme.kind = .inlineHtml) {offset : Nat} (hstart : c.step.start ≤ offset)
    (hstop : offset < c.step.stop) {tag rest : Bytes}
    (hdrop : s.content.drop offset = tag ++ rest) : ¬ IsOpenTag tag rest := by
  obtain ⟨hmode, hlexeme⟩ := Cursor.html_of_kind hkind
  have hoffset : c.step.start = c.offset := by
    rw [Cursor.step_of_markup hmode]
    rfl
  have hlength : c.step.lexeme.text.length = (Markup.html c.rest).length := by rw [hlexeme]
  have hlt : offset - c.offset < (Markup.html c.rest).length := by
    rw [← Step.stop_token] at hstop
    change offset < c.step.start + c.step.lexeme.text.length at hstop
    omega
  have hrest : c.rest.drop (offset - c.offset) = s.content.drop offset := by
    rw [← h.drop_offset, List.drop_drop, Nat.add_sub_cancel' (hoffset ▸ hstart)]
  exact Markup.openTag?_eq_none_iff.mp (Markup.openTag?_drop_of_lt hlt) tag rest
    (hrest.trans hdrop)

/-- Markup and code take turns, and tags are what they should be. -/
theorem alternates (s : Source) : s.Alternates where
  markup := by
    intro i t ht hopened
    obtain ⟨c, hc, rfl, -⟩ := exists_reaches_token ht
    have hkind := kind_read_markup c.rest
    rw [← hc.mode_of_not_opened hopened] at hkind
    exact hkind
  code := by
    intro i t ht hopened hkind
    obtain ⟨c, hc, rfl, -⟩ := exists_reaches_token ht
    have hmode : c.mode = .markup := mode_of_kind_mem (s := c.rest) hkind
    rw [hc.mode_of_opened hopened] at hmode
    cases hmode
  inlineHtml := by
    intro i t ht hkind
    obtain ⟨c, hc, rfl, hsteps⟩ := exists_reaches_token ht
    have hne : c.step.lexeme.kind ≠ .eof := by
      rw [show c.step.lexeme.kind = .inlineHtml from hkind]
      decide
    refine ⟨text_ne_nil_of_read hne, ⟨c.next.step.token, ?_, Cursor.kind_next_of_html hkind⟩, ?_⟩
    · rw [tokens, List.getElem?_map, getElem?_steps_succ hsteps hne, Option.map_some]
    · intro offset hstart hstop tag rest
      rw [Step.stop_token] at hstop
      exact hc.not_isOpenTag hkind hstart hstop
  openTag := by
    intro t ht hkind
    obtain ⟨i, c, hc, rfl, -⟩ := exists_reaches_of_mem ht
    rw [Step.stop_token]
    exact hc.isOpenTag hkind
  closeTag := by
    intro t ht hkind
    obtain ⟨i, c, hc, rfl, -⟩ := exists_reaches_of_mem ht
    rw [Step.stop_token]
    exact hc.isCloseTag hkind

/-- A name that only starts like a tag, a tag in mixed case, and a comment that a close tag ends. -/
theorem alternates_mixed_case :
    let s := Source.mk (ascii "a.php") (ascii "<b><?phpx<?PhP\n1?>\r\n<?=2 # x ?>\n\n")
    s.Alternates ∧ s.tokens.map (fun t => (t.kind, t.text)) =
      [(.inlineHtml, ascii "<b><?phpx"), (.openTag, ascii "<?PhP"), (.number, ascii "1"),
        (.closeTag, ascii "?>\r\n"), (.openTag, ascii "<?="), (.number, ascii "2"),
        (.closeTag, ascii "?>\n"), (.inlineHtml, ascii "\n"), (.eof, [])] ∧
      ¬ IsOpenTag (ascii "<?php") (s.content.drop 8) := by
  intro s
  have halternates := s.alternates
  refine ⟨halternates, by decide +kernel, ?_⟩
  obtain ⟨-, -, hhtml⟩ := halternates.inlineHtml 0 ⟨⟨.inlineHtml, ascii "<b><?phpx"⟩, 0⟩
    (by decide +kernel) rfl
  exact hhtml 3 (by decide) (by decide) _ _ (by decide)

end Source

end TextDomain
