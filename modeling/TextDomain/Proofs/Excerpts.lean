import TextDomain.Diagnostic.Emitter
import TextDomain.Proofs.Lines

/-!
# Quoted lines and carets

A diagnostic quotes the line that its span starts on. `lineOf` goes there from line feed to line
feed, past the whole lines before it (`lines_of_afterLineFeeds?`), and finds the text that the index
of a source has under the same number (`Source.lineOf_content`).

Under the line stand carets. Where they start and how many there are is computed in words of 32 bits
that wrap, for any numbers a span may hold. `Span.Underlines` says what comes of it: the first caret
has its column, and no other one stands past the end of the line (`Span.underlines`).

A fix shows the line as it will read. `Fix.text?` makes it by position, where a position out of
range is an error; the columns that are left out before make sure that there is none
(`Fix.text?_eq`).
-/

namespace TextDomain

/-! ## Going to a line -/

theorem exists_of_afterLineFeed? {s rest : Bytes} (h : afterLineFeed? s = some rest) :
    ∃ body, s = body ++ Byte.lf :: rest ∧ Byte.lf ∉ body := by
  induction s with
  | nil => cases h
  | cons c s ih =>
    rw [afterLineFeed?] at h
    split at h
    · rename_i hc
      exact ⟨[], by rw [hc, Option.some.inj h]; rfl, List.not_mem_nil⟩
    · rename_i hc
      obtain ⟨body, rfl, hbody⟩ := ih h
      exact ⟨c :: body, rfl, List.not_mem_cons_of_ne_of_not_mem (Ne.symm hc) hbody⟩

theorem lf_not_mem_of_afterLineFeed? {s : Bytes} (h : afterLineFeed? s = none) : Byte.lf ∉ s := by
  induction s with
  | nil => exact List.not_mem_nil
  | cons c s ih =>
    rw [afterLineFeed?] at h
    split at h
    · cases h
    · rename_i hc
      exact List.not_mem_cons_of_ne_of_not_mem (Ne.symm hc) (ih h)

/-- Going past `n` line feeds is going past `n` whole lines. -/
theorem lines_of_afterLineFeeds? {n : Nat} {s rest : Bytes} (h : afterLineFeeds? n s = some rest) :
    ∃ lines, s = lines ++ rest ∧ IsLines lines ∧ lines.count Byte.lf = n := by
  induction n generalizing s with
  | zero => exact ⟨[], Option.some.inj h, Or.inl rfl, rfl⟩
  | succ n ih =>
    rw [afterLineFeeds?] at h
    split at h
    · cases h
    · rename_i next hnext
      obtain ⟨body, rfl, hbody⟩ := exists_of_afterLineFeed? hnext
      obtain ⟨lines, rfl, hlines, hcount⟩ := ih h
      refine ⟨body ++ Byte.lf :: lines, by simp, Or.inr ?_, ?_⟩
      · rcases hlines with rfl | hlast
        · simp
        · rw [List.getLast?_append, List.getLast?_cons, hlast]
          rfl
      · rw [List.count_append, List.count_eq_zero.mpr hbody, List.count_cons_self, hcount,
          Nat.zero_add]

theorem count_lt_of_afterLineFeeds? {n : Nat} {s : Bytes} (h : afterLineFeeds? n s = none) :
    s.count Byte.lf < n := by
  induction n generalizing s with
  | zero => cases h
  | succ n ih =>
    rw [afterLineFeeds?] at h
    split at h
    · rename_i hnone
      rw [List.count_eq_zero.mpr (lf_not_mem_of_afterLineFeed? hnone)]
      exact Nat.succ_pos n
    · rename_i next hnext
      obtain ⟨body, rfl, hbody⟩ := exists_of_afterLineFeed? hnext
      rw [List.count_append, List.count_eq_zero.mpr hbody, List.count_cons_self, Nat.zero_add]
      exact Nat.succ_lt_succ (ih h)

theorem takeWhile_line {body rest : Bytes} (hbody : Byte.lf ∉ body)
    (hrest : rest = [] ∨ rest.head? = some Byte.lf) :
    (body ++ rest).takeWhile (· != Byte.lf) = body := by
  refine Bytes.takeWhile_append (fun c hc => bne_iff_ne.mpr fun hlf => hbody (hlf ▸ hc)) ?_
  rcases hrest with rfl | hlf
  · rfl
  · obtain ⟨later, rfl⟩ := List.head?_eq_some_iff.mp hlf
    rfl

theorem dropCarriageReturn_eq {body : Bytes} (h : Byte.lf ∉ body) :
    dropCarriageReturn body = chompLine body := by
  have hlast : body.getLast? ≠ some Byte.lf := fun hlf => h (List.mem_of_getLast? hlf)
  rw [chompLine, if_neg hlast]
  rfl

/-- A line found by its line feeds is the line found by the index. -/
theorem Source.lineOf_content (s : Source) (number : UInt32) :
    lineOf s.content number = s.line number := by
  rcases eq_or_ne number 0 with rfl | hzero
  · rfl
  have hpos : 0 < number.toNat := Nat.pos_of_ne_zero fun h0 => hzero (UInt32.toNat_inj.mp h0)
  rw [lineOf, if_neg hzero]
  split
  · rename_i hnone
    -- there are not so many lines, so the index has no entry either
    have hcount := count_lt_of_afterLineFeeds? hnone
    have hindex : s.lineStarts[number.toNat - 1]? = none := by
      rw [List.getElem?_eq_none_iff, lineStarts, length_lineStarts]
      exact hcount
    rw [line, if_neg hzero, hindex]
  · rename_i rest hrest
    obtain ⟨lines, hcontent, hlines, hcount⟩ := lines_of_afterLineFeeds? hrest
    obtain ⟨body, later, rfl, hbody, hlater⟩ := exists_line rest
    have hnumber : number.toNat = lines.count Byte.lf + 1 := by omega
    rw [takeWhile_line hbody hlater, dropCarriageReturn_eq hbody,
      line_of_lines hcontent hlines hbody hlater hnumber]

theorem length_chompLine_le (s : Bytes) : (chompLine s).length ≤ s.length := by
  have hdrop (p : Prop) [Decidable p] (t : Bytes) :
      (if p then t.dropLast else t).length ≤ t.length := by
    split
    · rw [List.length_dropLast]
      exact Nat.sub_le _ _
    · exact Nat.le_refl _
  exact Nat.le_trans (hdrop _ _) (hdrop _ _)

theorem Source.length_line_le (s : Source) (number : UInt32) :
    (s.line number).length ≤ s.content.length := by
  unfold line
  split
  · exact Nat.zero_le _
  · split
    · exact Nat.zero_le _
    · refine Nat.le_trans (length_chompLine_le _) ?_
      rw [slice, List.length_take, List.length_drop]
      omega

namespace Emitter

theorem sourceLine_of_lookup {e : Emitter} {path content : Bytes}
    (h : e.contents.lookup path = some content) (number : UInt32) :
    e.sourceLine path number = (Source.mk path content).line number := by
  rw [sourceLine, h]
  exact Source.lineOf_content ⟨path, content⟩ number

/-- A line of a content that was made known is the line of the source, whatever its number. -/
theorem sourceLine_addContent (e : Emitter) (path content : Bytes) (number : UInt32) :
    (e.addContent path content).sourceLine path number = (Source.mk path content).line number := by
  refine sourceLine_of_lookup ?_ number
  simp [addContent]

end Emitter

/-! ## Carets -/

/-- The row under a line `text`: padding up to the first column of a span, then carets. -/
structure Span.Underlines (s : Span) (text padding : Bytes) (count : Nat) : Prop where
  /-- Column zero counts as column one. -/
  length_padding : padding.length = max s.start.column.toNat 1 - 1
  padding_eq : ∀ i < padding.length,
    padding[i]? = some (if text[i]? = some Byte.tab then Byte.tab else Byte.space)
  one_le : 1 ≤ count
  /-- No caret but the first stands past the end of the line. -/
  le : count ≤ max 1 (text.length - padding.length)
  of_one_line : s.stop.line ≤ s.start.line → 1 ≤ s.start.column →
    s.start.column ≤ s.stop.column → s.stop.column.toNat ≤ text.length →
    count = s.stop.column.toNat - s.start.column.toNat + 1
  of_later_line : s.start.line < s.stop.line → padding.length < text.length →
    count = text.length - padding.length

theorem length_gutterSpace (line : Bytes) (n : Nat) : (gutterSpace line n).length = n := by
  rw [gutterSpace, List.length_append, List.length_map, List.length_take, List.length_replicate]
  omega

theorem getElem?_gutterSpace (text : Bytes) {n i : Nat} (h : i < n) :
    (gutterSpace text n)[i]? =
      some (if text[i]? = some Byte.tab then Byte.tab else Byte.space) := by
  rcases Nat.lt_or_ge i text.length with hlt | hge
  · have hi : i < (text.take n).length := by
      rw [List.length_take]
      omega
    rw [gutterSpace, List.getElem?_append_left (by rwa [List.length_map]), List.getElem?_map,
      List.getElem?_take_of_lt h, List.getElem?_eq_getElem hlt]
    simp
  · rw [gutterSpace, List.take_of_length_le (by omega),
      List.getElem?_append_right (by rwa [List.length_map]), List.length_map,
      List.getElem?_replicate_of_lt (by omega), List.getElem?_eq_none hge]
    simp

theorem toNat_max (a b : UInt32) : (max a b).toNat = max a.toNat b.toNat :=
  apply_ite UInt32.toNat (a ≤ b) b a

theorem toNat_min (a b : UInt32) : (min a b).toNat = min a.toNat b.toNat :=
  apply_ite UInt32.toNat (a ≤ b) a b

namespace Span

variable (s : Span) (line : Bytes)

theorem toNat_indent : s.indent.toNat = max s.start.column.toNat 1 - 1 := by
  rw [indent]
  split
  · rename_i h
    rw [h]
    rfl
  · rename_i h
    have hpos : 1 ≤ s.start.column.toNat := Nat.pos_of_ne_zero fun h0 => h (UInt32.toNat_inj.mp h0)
    have hle : 1 ≤ s.start.column := UInt32.le_iff_toNat_le.mpr hpos
    rw [UInt32.toNat_sub_of_le _ _ hle, UInt32.toNat_one, Nat.max_eq_left hpos]

variable {s line}

/-- What a span covers of one line, its last column included. -/
theorem toNat_width_of_one_line (hlines : s.stop.line ≤ s.start.line)
    (hstart : 1 ≤ s.start.column) (hcolumns : s.start.column ≤ s.stop.column) :
    (s.width line).toNat = s.stop.column.toNat - s.start.column.toNat + 1 := by
  rw [UInt32.le_iff_toNat_le, UInt32.toNat_one] at hstart
  have hbound := s.stop.column.toNat_lt
  rw [width, if_neg (UInt32.not_lt.mpr hlines), if_pos hcolumns, UInt32.toNat_add,
    UInt32.toNat_sub_of_le _ _ hcolumns, UInt32.toNat_one]
  exact Nat.mod_eq_of_lt (by omega)

theorem toNat_width_of_later_line (hsize : line.length < 2 ^ 32)
    (hlines : s.start.line < s.stop.line) (hindent : s.indent.toNat < line.length) :
    (s.width line).toNat = line.length - s.indent.toNat := by
  have hlength : (UInt32.ofNat line.length).toNat = line.length := UInt32.toNat_ofNat_of_lt' hsize
  have hlt : s.indent < UInt32.ofNat line.length := by rwa [UInt32.lt_iff_toNat_lt, hlength]
  rw [width, if_pos hlines]
  simp only [gt_iff_lt, if_pos hlt]
  rw [UInt32.toNat_sub_of_le _ _ (UInt32.le_of_lt hlt), hlength]

/-- The sum of indent and width may wrap. Carets are cut off at the end of the line, and there is
one at least. -/
theorem toNat_caretCount (hsize : line.length < 2 ^ 32) : (s.caretCount line).toNat =
    max (min ((s.indent.toNat + (s.width line).toNat) % 2 ^ 32) line.length)
      (s.indent.toNat + 1) - s.indent.toNat := by
  have hlength : (UInt32.ofNat line.length).toNat = line.length := UInt32.toNat_ofNat_of_lt' hsize
  have hnext : (s.indent + 1).toNat = s.indent.toNat + 1 := by
    have hbound := s.start.column.toNat_lt
    rw [UInt32.toNat_add, UInt32.toNat_one, Nat.mod_eq_of_lt (by rw [toNat_indent]; omega)]
  have hstop : s.indent ≤ max (min (s.indent + s.width line) (UInt32.ofNat line.length))
      (s.indent + 1) := by
    rw [UInt32.le_iff_toNat_le, toNat_max, hnext]
    omega
  rw [caretCount, UInt32.toNat_sub_of_le _ _ hstop, toNat_max, toNat_min, hnext, hlength,
    UInt32.toNat_add]

theorem underlines (hsize : line.length < 2 ^ 32) :
    s.Underlines line (gutterSpace line s.indent.toNat) (s.caretCount line).toNat := by
  have hcount := toNat_caretCount (s := s) hsize
  have hlength := length_gutterSpace line s.indent.toNat
  refine ⟨hlength.trans s.toNat_indent, fun i hi => ?_, by omega, by omega, ?_, ?_⟩
  · exact getElem?_gutterSpace line (hlength ▸ hi)
  · intro hlines hstart hcolumns hstop
    have hwidth : (s.width line).toNat = s.stop.column.toNat - s.start.column.toNat + 1 :=
      toNat_width_of_one_line hlines hstart hcolumns
    have hindent := s.toNat_indent
    rw [UInt32.le_iff_toNat_le, UInt32.toNat_one] at hstart
    rw [UInt32.le_iff_toNat_le] at hcolumns
    rw [hcount, hwidth, Nat.mod_eq_of_lt (by omega)]
    omega
  · intro hlines hindent
    rw [hlength] at hindent ⊢
    have hwidth := toNat_width_of_later_line hsize hlines hindent
    rw [hcount, hwidth, Nat.mod_eq_of_lt (by omega)]
    omega

end Span

/-! ## Previews by position -/

namespace Bytes

/-- The bytes from `start` on, `count` of them or as many as there are. There is nothing to start
from past the end. -/
def slice? (s : Bytes) (start count : Nat) : Option Bytes :=
  if start ≤ s.length then some ((s.drop start).take count) else none

/-- Puts a text in place of the bytes from `start` on, `count` of them or as many as there are.
There is nothing to replace past the end. -/
def replace? (s : Bytes) (start count : Nat) (text : Bytes) : Option Bytes :=
  if start ≤ s.length then some (s.take start ++ text ++ s.drop (start + count)) else none

theorem slice?_append (a b : Bytes) :
    slice? (a ++ b) a.length (a ++ b).length = some b := by
  have hle : a.length ≤ (a ++ b).length := by simp
  rw [slice?, if_pos hle, List.drop_left, List.take_of_length_le (by simp)]

end Bytes

/-- A fix as text, with its preview made by position: the line is patched, and what stands before
and after the replacement is read back from it. A position out of range is an error. -/
def Fix.text? (f : Fix) (colors : Bool) (line : Bytes) : Option Bytes := do
  let title := Style.brightGreen.when colors ++ ascii "  = fix" ++ Style.reset.when colors ++
    ascii ": " ++ f.description ++ [Byte.lf]
  let indent := f.span.indent.toNat
  if f.span.stop.line > f.span.start.line ∨ line = [] ∨ indent > line.length then return title
  let patched ← Bytes.replace? line indent (f.span.width line).toNat f.replacement
  let before ← Bytes.slice? patched 0 indent
  let after ← Bytes.slice? patched (indent + f.replacement.length) patched.length
  return title ++ margin colors lineNumberWidth (decimal f.span.start.line.toNat) (ascii " | ") ++
    before ++ Style.brightGreen.when colors ++ f.replacement ++ Style.reset.when colors ++ after ++
    [Byte.lf]

/-- No position is out of range. -/
theorem Fix.text?_eq (f : Fix) (colors : Bool) (line : Bytes) :
    f.text? colors line = some (f.text colors line) := by
  unfold text? text preview?
  dsimp only
  split
  · simp
  · rename_i hshown
    have hindent : f.span.indent.toNat ≤ line.length := by
      simp only [not_or, not_lt] at hshown
      exact hshown.2.2
    have hbefore : (line.take f.span.indent.toNat).length = f.span.indent.toNat := by
      rw [List.length_take, Nat.min_eq_left hindent]
    have hpatched := Bytes.slice?_append (line.take f.span.indent.toNat ++ f.replacement)
      (line.drop (f.span.indent.toNat + (f.span.width line).toNat))
    rw [List.length_append, hbefore] at hpatched
    simp only [Bytes.replace?, if_pos hindent, Option.bind_eq_bind, Option.bind_some, hpatched]
    simp [Bytes.slice?, hbefore]

namespace Emitter

/-- The carets of a diagnostic stand under its line, however its numbers wrap, and its fixes are
shown without a position out of range. -/
theorem carets_on_line (e : Emitter) (d : Diagnostic) (content : Bytes)
    (hformat : e.format = .text) (hcolors : e.colors = false)
    (hcontent : e.contents.lookup d.span.file = some content) (hsize : content.length < 2 ^ 32)
    (hline : e.sourceLine d.span.file d.span.start.line ≠ []) :
    let line := e.sourceLine d.span.file d.span.start.line
    let number := decimal d.span.start.line.toNat
    let width := max number.length 4
    let gutter := List.replicate width Byte.space
    ∃ padding count fixes, d.span.Underlines line padding count ∧
      d.fixes.mapM (fun f => f.text? false (e.sourceLine f.span.file f.span.start.line)) =
        some fixes ∧
      (e.emit d).1 = d.header false ++ d.span.place false ++
        [gutter ++ ascii " |",
          padLeft Byte.space width number ++ ascii " | " ++ line,
          gutter ++ ascii " | " ++ padding ++ List.replicate count 0x5e,
          gutter ++ ascii " |"].flatMap (· ++ [Byte.lf]) ++ fixes.flatten := by
  intro line number width gutter
  have hshort : line.length < 2 ^ 32 := by
    have hle := Source.length_line_le ⟨d.span.file, content⟩ d.span.start.line
    rw [← sourceLine_of_lookup hcontent] at hle
    exact Nat.lt_of_le_of_lt hle hsize
  refine ⟨_, _, d.fixes.map fun f => f.text false (e.sourceLine f.span.file f.span.start.line),
    Span.underlines hshort, ?_, ?_⟩
  · simp only [Fix.text?_eq]
    exact List.mapM_pure
  · have hsnippet : d.span.snippet false line = [gutter ++ ascii " |",
        padLeft Byte.space width number ++ ascii " | " ++ line,
        gutter ++ ascii " | " ++ gutterSpace line d.span.indent.toNat ++
          List.replicate (d.span.caretCount line).toNat 0x5e,
        gutter ++ ascii " |"].flatMap (· ++ [Byte.lf]) := by
      simp [Span.snippet, Span.underline, carets, margin, Style.when, padLeft, gutter, width,
        number, lineNumberWidth]
    rw [emit, render, hformat]
    simp only [Diagnostic.text, hcolors, if_neg hline, List.flatMap_def]
    rw [hsnippet, List.flatMap_def]

/-- The span starts past the end of its line and has the largest length, so its indent and width
wrap. The fix takes out as many bytes. -/
theorem carets_on_line_wrapping :
    let content := ascii "<?php\n\tabc"
    let e := (Emitter.new .text false).addContent (ascii "a.php") content
    let span : Span := ⟨ascii "a.php", ⟨2, 9, 0, 0xffffffff⟩, ⟨2, 2, 0, 0⟩⟩
    let fix : Fix := ⟨⟨ascii "a.php", ⟨2, 3, 0, 0xffffffff⟩, ⟨2, 2, 0, 0⟩⟩, ascii "x", ascii "y"⟩
    content.length < 2 ^ 32 ∧ e.sourceLine span.file span.start.line = ascii "\tabc" ∧
      (∃ padding count, span.Underlines (ascii "\tabc") padding count ∧ padding.length = 8 ∧
        count = 1) ∧
      (e.emit ⟨[], ascii "m", span, [fix]⟩).1 =
        ascii "error: m\n  --> a.php:2:9\n     |\n   2 | \tabc\n     | \t       ^\n     |\n" ++
          ascii "  = fix: y\n   2 | \tax\n" := by
  intro content e span fix
  obtain ⟨padding, count, -, hunder, -⟩ := carets_on_line e ⟨[], ascii "m", span, [fix]⟩ content
    rfl rfl rfl (by decide) (by decide)
  have hle := hunder.le
  have hlength : padding.length = 8 := hunder.length_padding
  rw [hlength] at hle
  exact ⟨by decide, by decide, ⟨padding, count, hunder, hlength, Nat.le_antisymm hle hunder.one_le⟩,
    by decide +kernel⟩

end Emitter

end TextDomain
