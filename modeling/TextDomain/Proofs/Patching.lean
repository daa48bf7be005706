import Mathlib.Data.Set.Card
import TextDomain.Proofs.Calls
import TextDomain.Proofs.Layout

/-!
# Replacing tokens in any order

The content of a draft is that of its source with the last text of each replaced token in place of
the token (`Source.withTexts`). Only the last text counts, so replacements of different tokens may
be made in any order.

`Source.patch?` is splicing as it is done on words. It moves a cursor of 64 bits over offsets that
are held in 32, its differences wrap, and reading from past the end of the content is an error. The
tokens of a content that 32 bits can address stand in order and apart, so nothing wraps, nothing is
read past the end, and the result is the one of `splice` (`Source.patch?_eq`).
-/

namespace TextDomain

/-! ## Splicing by words -/

/-- The edit that puts a text in place of a token. -/
def Token.edit (pair : Token × Bytes) : Edit :=
  ⟨pair.1.offset, pair.1.text.length, pair.2⟩

/-- The offset of a token as its span holds it. -/
def Token.word (s : Source) (t : Token) : UInt32 :=
  (t.span s.name s.lineStarts).start.offset

namespace Source

/-- The `count` bytes of the content from `start` on, or as many as there are. The content has
nothing to start from past its end. -/
def bytes? (s : Source) (start count : UInt64) : Option Bytes :=
  if start.toNat ≤ s.content.length then some ((s.content.drop start.toNat).take count.toNat)
  else none

/-- Puts texts in place of tokens, in words: keeps what stands between `cursor` and the first token,
and goes on after that token. -/
def patch? (s : Source) (cursor : UInt64) : List (Token × Bytes) → Option Bytes
  | [] => s.bytes? cursor (-1)
  | (t, text) :: pairs => do
    let kept ← s.bytes? cursor ((t.word s).toUInt64 - cursor)
    let rest ← s.patch? ((t.word s).toUInt64 + UInt64.ofNat t.text.length) pairs
    return kept ++ text ++ rest

variable {s : Source}

theorem word_eq {t : Token} (h : t.offset < 2 ^ 32) :
    (t.word s).toUInt64 = UInt64.ofNat t.offset := by
  have hword : (t.word s).toNat = t.offset := UInt32.toNat_ofNat_of_lt' h
  rw [← UInt64.toNat_inj, UInt32.toNat_toUInt64, hword, UInt64.toNat_ofNat_of_lt']
  exact Nat.lt_trans h (by decide)

theorem bytes?_eq (hsize : s.content.length < 2 ^ 32) {start count : Nat}
    (hstart : start ≤ s.content.length) (hcount : count < 2 ^ 64) :
    s.bytes? (UInt64.ofNat start) (UInt64.ofNat count) =
      some ((s.content.drop start).take count) := by
  have hword : (UInt64.ofNat start).toNat = start :=
    UInt64.toNat_ofNat_of_lt' (Nat.lt_trans (Nat.lt_of_le_of_lt hstart hsize) (by decide))
  rw [bytes?, hword, if_pos hstart, UInt64.toNat_ofNat_of_lt' hcount]

/-- Where tokens stand in order within a content that 32 bits can address, splicing by words is
splicing. -/
theorem patch?_eq (hsize : s.content.length < 2 ^ 32) {start : Nat}
    (hstart : start ≤ s.content.length) {pairs : List (Token × Bytes)}
    (hplaces : ∀ pair ∈ pairs, start ≤ pair.1.offset ∧ pair.1.stop ≤ s.content.length)
    (hordered : pairs.Pairwise fun a b => a.1.stop ≤ b.1.offset) :
    s.patch? (UInt64.ofNat start) pairs =
      some (splice start (s.content.drop start) (pairs.map Token.edit)) := by
  induction pairs generalizing start with
  | nil =>
    -- the count of the last read is the largest word, which is more than any content has left
    have hall : ((s.content.drop start).take (2 ^ 64 - 1)) = s.content.drop start :=
      List.take_of_length_le (by rw [List.length_drop]; omega)
    exact (bytes?_eq hsize hstart (by decide)).trans (congrArg some hall)
  | cons pair pairs ih =>
    obtain ⟨t, text⟩ := pair
    have hfirst : start ≤ t.offset := (hplaces _ List.mem_cons_self).1
    have hstop : t.stop ≤ s.content.length := (hplaces _ List.mem_cons_self).2
    obtain ⟨hlater, hordered⟩ := List.pairwise_cons.mp hordered
    have hlength : t.stop = t.offset + t.text.length := rfl
    -- tokens stand in order, so the difference is that of the offsets
    have hdistance : UInt64.ofNat t.offset - UInt64.ofNat start =
        UInt64.ofNat (t.offset - start) := (UInt64.ofNat_sub hfirst).symm
    have hnext : UInt64.ofNat t.offset + UInt64.ofNat t.text.length = UInt64.ofNat t.stop :=
      (UInt64.ofNat_add _ _).symm
    have hrest : s.patch? (UInt64.ofNat t.stop) pairs =
        some (splice t.stop (s.content.drop t.stop) (pairs.map Token.edit)) :=
      ih hstop (fun pair hpair =>
        ⟨hlater pair hpair, (hplaces pair (List.mem_cons_of_mem _ hpair)).2⟩) hordered
    have hdrop : (s.content.drop start).drop (t.stop - start) = s.content.drop t.stop := by
      rw [List.drop_drop, Nat.add_sub_cancel' (by omega)]
    have hsplice : splice start (s.content.drop start) (((t, text) :: pairs).map Token.edit) =
        (s.content.drop start).take (t.offset - start) ++ text ++
          splice t.stop ((s.content.drop start).drop (t.stop - start)) (pairs.map Token.edit) := rfl
    rw [patch?, word_eq (by omega), hdistance, hnext, bytes?_eq hsize hstart (by omega), hrest,
      hsplice, hdrop]
    rfl

/-! ## Replaced tokens -/

/-- The content with a new text in place of each token that `new` has one for: the gaps between the
tokens are as they were. -/
def withTexts (s : Source) (new : Nat → Option Bytes) : Bytes :=
  (s.gaps.zip (s.tokens.mapIdx fun i t => (new i).getD t.text)).flatMap fun (gap, text) =>
    gap ++ text

theorem rewrite_eq_withTexts (s : Source) (new : Nat → Option Bytes) :
    s.rewrite new = s.withTexts new := by
  have hzip : s.gaps.zip (s.tokens.mapIdx fun i t => (new i).getD t.text) =
      (s.renewals new).map fun pair =>
        (Trivia.join pair.1.reading.gap, pair.2.getD pair.1.lexeme.text) := by
    rw [gaps_eq, tokens, renewals]
    refine List.ext_getElem (by simp) fun i _ _ => ?_
    simp
    rfl
  rw [withTexts, hzip, List.flatMap_map]
  rfl

theorem withTexts_congr {new new' : Nat → Option Bytes}
    (h : ∀ i < s.tokens.length, new i = new' i) : s.withTexts new = s.withTexts new' := by
  have htexts : (s.tokens.mapIdx fun i t => (new i).getD t.text) =
      s.tokens.mapIdx fun i t => (new' i).getD t.text := by
    refine List.ext_getElem (by simp) fun i hi _ => ?_
    rw [List.getElem_mapIdx, List.getElem_mapIdx, h i (by simpa using hi)]
  rw [withTexts, withTexts, htexts]

end Source

/-- The last text that some calls put in place of the token at a position. -/
def finalText? (calls : List Call) (position : Nat) : Option Bytes :=
  (calls.filterMap (Call.text? position)).getLast?

theorem finalText?_append_report (calls : List Call) (position : Nat) (message code : Bytes) :
    finalText? (calls ++ [.report position message code]) = finalText? calls := by
  funext i
  simp [finalText?, Call.text?]

theorem finalText?_append_replace (calls : List Call) (position : Nat) (text : Bytes) :
    finalText? (calls ++ [.replace position text]) =
      Function.update (finalText? calls) position (some text) := by
  funext i
  rw [finalText?, List.filterMap_append, Function.update_apply]
  rcases eq_or_ne position i with rfl | hne
  · simp [Call.text?_replace_self]
  · simp [Call.text?_replace_of_ne hne, hne.symm, finalText?]

theorem isSome_finalText?_iff {calls : List Call} {position : Nat} :
    (finalText? calls position).isSome ↔ ∃ text, Call.replace position text ∈ calls := by
  rw [finalText?, List.getLast?_isSome, ne_eq, List.filterMap_eq_nil_iff, not_forall₂]
  constructor
  · rintro ⟨call, hcall, htext⟩
    cases call with
    | report p message code => exact absurd rfl htext
    | replace p text =>
      rcases eq_or_ne p position with rfl | hne
      · exact ⟨text, hcall⟩
      · exact absurd (Call.text?_replace_of_ne hne text) htext
  · rintro ⟨text, hcall⟩
    exact ⟨_, hcall, by simp [Call.text?_replace_self]⟩

namespace Draft

variable {d : Draft} {source : Source} {new : Nat → Option Bytes}

/-- The tokens that are marked for replacement, each with its new text. -/
def marked (d : Draft) : List (Token × Bytes) :=
  (d.tokens.toList.zip d.marks.toList).filterMap fun (token, mark) => mark.map (token, ·)

theorem edits_eq (d : Draft) : d.edits = d.marked.map Token.edit := by
  rw [edits, marked, List.map_filterMap]
  refine List.filterMap_congr fun pair _ => ?_
  rw [Option.map_map]
  rfl

theorem mem_tokens_of_mem_marked {pair : Token × Bytes} (h : pair ∈ d.marked) :
    pair.1 ∈ d.tokens.toList := by
  obtain ⟨⟨token, mark⟩, hmem, hpair⟩ := List.mem_filterMap.mp h
  obtain ⟨text, -, rfl⟩ := Option.map_eq_some_iff.mp hpair
  exact (List.of_mem_zip hmem).1

/-- Splicing by words gives the content of a draft. -/
theorem patch?_marked (h : d.Holds source new) (hsize : source.content.length < 2 ^ 32) :
    source.patch? 0 d.marked = some d.content := by
  have htokens : d.tokens.toList = source.tokens := by rw [h.tokens_eq]
  have hplaces : ∀ pair ∈ d.marked, 0 ≤ pair.1.offset ∧ pair.1.stop ≤ source.content.length := by
    intro pair hpair
    have hmem := mem_tokens_of_mem_marked hpair
    rw [htokens] at hmem
    exact ⟨Nat.zero_le _, (Source.slice_of_mem_tokens hmem).1⟩
  have hordered : d.marked.Pairwise fun a b => a.1.stop ≤ b.1.offset := by
    have hfst : (d.tokens.toList.zip d.marks.toList).map Prod.fst = source.tokens := by
      rw [List.map_fst_zip (by simp [h.size_marks]), htokens]
    have hpairs : ((d.tokens.toList.zip d.marks.toList).map Prod.fst).Pairwise fun a b =>
        a.stop ≤ b.offset := by
      rw [hfst]
      exact (Cursor.begin source.content).pairwise_tokens.imp And.right
    refine (List.pairwise_map.mp hpairs).filterMap _ ?_
    rintro ⟨t, mark⟩ ⟨t', mark'⟩ hstop pair hpair pair' hpair'
    obtain ⟨text, -, rfl⟩ := Option.map_eq_some_iff.mp hpair
    obtain ⟨text', -, rfl⟩ := Option.map_eq_some_iff.mp hpair'
    exact hstop
  have hpatch := Source.patch?_eq hsize (Nat.zero_le _) hplaces hordered
  rw [List.drop_zero, ← edits_eq] at hpatch
  rw [content, h.source_eq]
  exact hpatch

theorem editCount_of_holds (h : d.Holds source new) :
    d.editCount = {i | i < source.tokens.length ∧ (new i).isSome}.ncard := by
  have hcount : d.editCount =
      ((List.range source.tokens.length).filter fun i => (new i).isSome).length := by
    rw [editCount, ← Array.countP_toList, h.toList_marks, List.countP_map,
      List.countP_eq_length_filter, Source.tokens, List.length_map]
    rfl
  have hset : {i | i < source.tokens.length ∧ (new i).isSome} =
      ((List.range source.tokens.length).filter fun i => (new i).isSome).toFinset := by
    ext i
    simp
  rw [hset, Set.ncard_coe_finset, List.toFinset_card_of_nodup (List.nodup_range.filter _), hcount]

/-- A draft holds the last text that each token was replaced by. -/
theorem holds_after (source : Source) (accepting : Bool) (rule : Bytes) (calls : List Call) :
    ((ofSource source accepting rule).after (calls.map Call.op)).Holds source
      (finalText? calls) := by
  induction calls using List.reverseRecOn with
  | nil => exact holds_ofSource source accepting rule
  | append_singleton calls call ih =>
    rw [List.map_append, after_append]
    cases call with
    | report position message code =>
      rw [finalText?_append_report]
      exact ih.report position message code
    | replace position text =>
      rw [finalText?_append_replace]
      exact ih.replace position text

/-- However tokens are reported and replaced, splicing reads nothing out of range and changes the
replaced tokens only, each to its last text. The order of replacements of different tokens does not
matter. -/
theorem content_after (s : Source) (hsize : s.content.length < 2 ^ 32) (accepting : Bool)
    (rule : Bytes) (calls : List Call) :
    let d := (ofSource s accepting rule).after (calls.map Call.op)
    s.patch? 0 d.marked = some d.content ∧
    d.content = s.withTexts (finalText? calls) ∧ s.content = s.withTexts (fun _ => none) ∧
    d.editCount =
      {i | i < s.tokens.length ∧ ∃ text, Call.replace i text ∈ calls}.ncard ∧
    ∀ calls' : List Call,
      (∀ i < s.tokens.length,
        calls'.filterMap (Call.text? i) = calls.filterMap (Call.text? i)) →
      let d' := (ofSource s accepting rule).after (calls'.map Call.op)
      d'.content = d.content ∧ d'.editCount = d.editCount := by
  intro d
  have hd := holds_after s accepting rule calls
  have hcontent : ∀ calls', ((ofSource s accepting rule).after (calls'.map Call.op)).content =
      s.withTexts (finalText? calls') := fun calls' => by
    rw [content_of_holds (holds_after s accepting rule calls'), Source.rewrite_eq_withTexts]
  refine ⟨patch?_marked hd hsize, hcontent calls, ?_, ?_, fun calls' hcalls => ⟨?_, ?_⟩⟩
  · rw [← Source.rewrite_eq_withTexts, Source.rewrite_none]
  · simp only [← isSome_finalText?_iff]
    exact editCount_of_holds hd
  · rw [hcontent, hcontent]
    exact Source.withTexts_congr fun i hi => congrArg List.getLast? (hcalls i hi)
  · rw [editCount_of_holds hd, editCount_of_holds (holds_after s accepting rule calls')]
    congr 1
    ext i
    refine and_congr_right fun hi => ?_
    rw [finalText?, finalText?, hcalls i hi]

/-- One literal is replaced twice, text is put before the end, and one replacement is of no token.
-/
theorem content_after_in_two_orders :
    let s := Source.mk (ascii "a.php") (ascii "<?php __('a', \"b\")")
    let calls : List Call := [.replace 7 (ascii "!"), .replace 3 (ascii "x"), .report 5 [] [],
      .replace 99 (ascii "?"), .replace 5 (ascii "yy"), .replace 3 (ascii "zzz")]
    let calls' : List Call := [.replace 3 (ascii "x"), .replace 3 (ascii "zzz"),
      .replace 5 (ascii "yy"), .replace 7 (ascii "!")]
    let d := (ofSource s true []).after (calls.map Call.op)
    let d' := (ofSource s true []).after (calls'.map Call.op)
    s.content.length < 2 ^ 32 ∧ s.patch? 0 d.marked = some d.content ∧
      d.content = ascii "<?php __(zzz, yy)!" ∧ d.editCount = 3 ∧
      d'.content = d.content ∧ d'.editCount = d.editCount := by
  intro s calls calls' d d'
  obtain ⟨hpatch, -, -, -, horder⟩ := content_after s (by decide) true [] calls
  exact ⟨by decide, hpatch, by decide +kernel, by decide +kernel, horder calls' (by decide +kernel)⟩

end Draft

end TextDomain
