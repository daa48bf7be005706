import Mathlib.Algebra.Group.Nat.Defs
import Mathlib.Data.List.Induction
import Mathlib.Data.List.TakeWhile
import TextDomain.Source

/-!
# Lines and columns

`IsPlace` says what it is to stand at a column of a line, by counting: the text before an offset is
made up of the whole lines before its own and of the start of its own line. `Source.location` finds
the place of every offset as long as its numbers fit (`Source.isPlace_location`). It looks up where
the lines start, and of these the ones up to an offset are those of the text before it
(`takeWhile_lineStarts`).
-/

namespace TextDomain

/-- Whole lines: nothing, or a text that ends with a line feed. -/
def IsLines (s : Bytes) : Prop :=
  s = [] ∨ s.getLast? = some Byte.lf

/-- The offset is at a column of a line, both counted from one: the text before it is `line - 1`
whole lines and the start of one more. -/
def IsPlace (content : Bytes) (offset line column : Nat) : Prop :=
  ∃ lines start, content.take offset = lines ++ start ∧ IsLines lines ∧ Byte.lf ∉ start ∧
    line = lines.count Byte.lf + 1 ∧ column = offset - lines.length + 1

/-- Every text is whole lines and the start of one more. -/
theorem exists_lines (s : Bytes) :
    ∃ lines start, s = lines ++ start ∧ IsLines lines ∧ Byte.lf ∉ start := by
  induction s using List.reverseRecOn with
  | nil => exact ⟨[], [], rfl, Or.inl rfl, List.not_mem_nil⟩
  | append_singleton s c ih =>
    rcases eq_or_ne c Byte.lf with rfl | hc
    · exact ⟨s ++ [Byte.lf], [], by simp, Or.inr (by simp), List.not_mem_nil⟩
    · obtain ⟨lines, start, rfl, hlines, hstart⟩ := ih
      exact ⟨lines, start ++ [c], by simp, hlines, by simp [hstart, hc.symm]⟩

/-! ## Where lines start -/

theorem lineStartsAfter_append (base : Nat) (s t : Bytes) :
    lineStartsAfter base (s ++ t) =
      lineStartsAfter base s ++ lineStartsAfter (base + s.length) t := by
  induction s generalizing base with
  | nil => rfl
  | cons c s ih =>
    have hbase : base + (c :: s).length = base + 1 + s.length := by
      rw [List.length_cons]
      omega
    rw [List.cons_append, lineStartsAfter, lineStartsAfter, ih, hbase]
    split <;> rfl

theorem length_lineStartsAfter (base : Nat) (s : Bytes) :
    (lineStartsAfter base s).length = s.count Byte.lf := by
  induction s generalizing base with
  | nil => rfl
  | cons c s ih =>
    rw [lineStartsAfter, List.count_cons]
    split <;> simp_all

theorem lineStartsAfter_eq_nil {s : Bytes} (h : Byte.lf ∉ s) (base : Nat) :
    lineStartsAfter base s = [] := by
  rw [← List.length_eq_zero_iff, length_lineStartsAfter, List.count_eq_zero]
  exact h

theorem lt_of_mem_lineStartsAfter {base i : Nat} {s : Bytes} (h : i ∈ lineStartsAfter base s) :
    base < i := by
  induction s generalizing base with
  | nil => cases h
  | cons c s ih =>
    rw [lineStartsAfter] at h
    split at h
    · rcases List.mem_cons.mp h with rfl | h
      · exact Nat.lt_succ_self base
      · exact Nat.lt_of_succ_lt (ih h)
    · exact Nat.lt_of_succ_lt (ih h)

theorem takeWhile_lineStartsAfter {base offset : Nat} (s : Bytes) (h : base ≤ offset) :
    (lineStartsAfter base s).takeWhile (· ≤ offset) =
      lineStartsAfter base (s.take (offset - base)) := by
  induction s generalizing base with
  | nil => simp [lineStartsAfter]
  | cons c s ih =>
    rcases Nat.eq_or_lt_of_le h with rfl | hlt
    · rw [Nat.sub_self, List.take_zero, lineStartsAfter, List.takeWhile_eq_nil_iff]
      intro hpos
      have hfirst := lt_of_mem_lineStartsAfter (List.getElem_mem hpos)
      simpa using hfirst
    · have hsub : offset - base = offset - (base + 1) + 1 := by omega
      rw [hsub, List.take_succ_cons, lineStartsAfter, lineStartsAfter]
      split
      · rw [List.takeWhile_cons_of_pos (by simp only [decide_eq_true_eq]; omega), ih hlt]
      · exact ih hlt

/-- The lines that start up to an offset are those of the text before it. -/
theorem takeWhile_lineStarts (content : Bytes) (offset : Nat) :
    (lineStarts content).takeWhile (· ≤ offset) = lineStarts (content.take offset) := by
  rw [lineStarts, List.takeWhile_cons_of_pos (by simp),
    takeWhile_lineStartsAfter content (Nat.zero_le offset)]
  rfl

/-- After whole lines the next line starts where they end. -/
theorem lineStarts_of_isLines {lines : Bytes} (h : IsLines lines) :
    ∃ earlier, lineStarts lines = earlier ++ [lines.length] := by
  rcases h with rfl | hlast
  · exact ⟨[], rfl⟩
  · obtain ⟨init, rfl⟩ := List.getLast?_eq_some_iff.mp hlast
    refine ⟨0 :: lineStartsAfter 0 init, ?_⟩
    rw [lineStarts, lineStartsAfter_append, List.cons_append]
    simp [lineStartsAfter]

/-- The last line starts after the whole lines before it. -/
theorem getLastD_lineStarts {lines start : Bytes} (hlines : IsLines lines)
    (hstart : Byte.lf ∉ start) : (lineStarts (lines ++ start)).getLastD 0 = lines.length := by
  obtain ⟨earlier, hearlier⟩ := lineStarts_of_isLines hlines
  rw [lineStarts, lineStartsAfter_append, lineStartsAfter_eq_nil hstart, List.append_nil]
  rw [lineStarts] at hearlier
  rw [hearlier, List.getLastD_concat]

theorem length_lineStarts (s : Bytes) : (lineStarts s).length = s.count Byte.lf + 1 := by
  rw [lineStarts, List.length_cons, length_lineStartsAfter]

/-- The line and the column of an offset, given the whole lines before it and the start of its own.
-/
theorem Source.location_of_lines (s : Source) {offset : Nat} (h : offset < 2 ^ 32 - 1)
    {lines start : Bytes} (htake : s.content.take offset = lines ++ start) (hlines : IsLines lines)
    (hstart : Byte.lf ∉ start) : (s.location offset).line.toNat = lines.count Byte.lf + 1 ∧
      (s.location offset).column.toNat = offset - lines.length + 1 := by
  have hreached : s.lineStarts.takeWhile (· ≤ offset) = TextDomain.lineStarts (lines ++ start) := by
    rw [← htake]
    exact takeWhile_lineStarts s.content offset
  have hcount : (lines ++ start).count Byte.lf = lines.count Byte.lf := by
    rw [List.count_append, List.count_eq_zero.mpr hstart, Nat.add_zero]
  have hfits : lines.count Byte.lf ≤ offset := by
    have hle : (s.content.take offset).count Byte.lf ≤ (s.content.take offset).length :=
      List.count_le_length
    rw [htake, hcount, ← htake, List.length_take] at hle
    omega
  constructor
  · rw [location, locate, hreached, length_lineStarts, hcount]
    exact UInt32.toNat_ofNat_of_lt' (by change _ < 2 ^ 32; omega)
  · rw [location, locate, hreached, getLastD_lineStarts hlines hstart, UInt32.toNat_add,
      UInt32.toNat_ofNat_of_lt' (by change _ < 2 ^ 32; omega)]
    exact Nat.mod_eq_of_lt (by simp only [UInt32.toNat_one]; omega)

/-- A location is the place of its offset. -/
theorem Source.isPlace_location (s : Source) {offset : Nat} (h : offset < 2 ^ 32 - 1) :
    IsPlace s.content offset (s.location offset).line.toNat (s.location offset).column.toNat := by
  obtain ⟨lines, start, htake, hlines, hstart⟩ := exists_lines (s.content.take offset)
  exact ⟨lines, start, htake, hlines, hstart, s.location_of_lines h htake hlines hstart⟩

end TextDomain
