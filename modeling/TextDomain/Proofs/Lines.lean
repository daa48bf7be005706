import Mathlib.Data.Prod.Lex
import Mathlib.Order.Interval.Set.Defs
import TextDomain.Proofs.Places

/-!
# Lines of a source

An offset has a line and a column (`Source.location`), and a line has a text (`Source.line`). The
column counts from where the line of the offset starts (`StartsLine`). Of two offsets the later one
has the later line, or the later column of the same line (`Source.place_lt`), also past the end.

The text of a line is found by cutting the content into the whole lines before it, the line itself
and the rest (`Source.line_of_lines`). It leaves out the line feed, and with it or at the end of the
content one carriage return; every other byte stands at its column.
-/

namespace TextDomain

/-- Line and column of a location, ordered by the line first. -/
def Location.place (l : Location) : ℕ ×ₗ ℕ :=
  toLex (l.line.toNat, l.column.toNat)

/-- The line of an offset starts at `start`: with the content or after a line feed, and no other
line feed comes before the offset. -/
structure StartsLine (content : Bytes) (offset start : Nat) : Prop where
  le : start ≤ offset
  first : start = 0 ∨ content[start - 1]? = some Byte.lf
  same : ∀ i, start ≤ i → i < offset → content[i]? ≠ some Byte.lf

/-! ## Cutting a text into lines -/

/-- Every text is the rest of a line and what follows it. -/
theorem exists_line (s : Bytes) :
    ∃ body rest, s = body ++ rest ∧ Byte.lf ∉ body ∧ (rest = [] ∨ rest.head? = some Byte.lf) := by
  induction s with
  | nil => exact ⟨[], [], rfl, List.not_mem_nil, Or.inl rfl⟩
  | cons c s ih =>
    rcases eq_or_ne c Byte.lf with rfl | hc
    · exact ⟨[], Byte.lf :: s, rfl, List.not_mem_nil, Or.inr rfl⟩
    · obtain ⟨body, rest, rfl, hbody, hrest⟩ := ih
      exact ⟨c :: body, rest, rfl, List.not_mem_cons_of_ne_of_not_mem hc.symm hbody, hrest⟩

theorem startsLine_length {content lines start : Bytes} {offset : Nat}
    (htake : content.take offset = lines ++ start) (hlines : IsLines lines)
    (hstart : Byte.lf ∉ start) : StartsLine content offset lines.length := by
  have hlength := congrArg List.length htake
  rw [List.length_take, List.length_append] at hlength
  have hbefore : ∀ i, i < offset → content[i]? = (lines ++ start)[i]? := by
    intro i hi
    rw [← htake, List.getElem?_take_of_lt hi]
  refine ⟨by omega, ?_, fun i hle hi => ?_⟩
  · rcases hlines with rfl | hlast
    · exact Or.inl rfl
    · obtain ⟨init, rfl⟩ := List.getLast?_eq_some_iff.mp hlast
      refine Or.inr ?_
      rw [List.length_append, List.length_singleton] at hlength ⊢
      rw [hbefore _ (by omega)]
      simp
  · rw [hbefore i hi, List.getElem?_append_right hle]
    exact fun hlf => hstart (List.mem_of_getElem? hlf)

/-! ## The text of a line -/

theorem chompLine_append_lf {body : Bytes} (h : Byte.lf ∉ body) :
    chompLine (body ++ [Byte.lf]) = chompLine body := by
  have hlast : body.getLast? ≠ some Byte.lf := fun hlf => h (List.mem_of_getLast? hlf)
  simp [chompLine, hlast]

/-- A line keeps every byte but a carriage return at its end. -/
theorem getElem?_chompLine {body : Bytes} {c : UInt8} {i : Nat} (h : Byte.lf ∉ body)
    (hi : body[i]? = some c) (hc : ¬ (c = Byte.cr ∧ i + 1 = body.length)) :
    (chompLine body)[i]? = some c := by
  have hlast : body.getLast? ≠ some Byte.lf := fun hlf => h (List.mem_of_getLast? hlf)
  rw [chompLine, if_neg hlast]
  split
  · rename_i hcr
    obtain ⟨init, rfl⟩ := List.getLast?_eq_some_iff.mp hcr
    have hlt : i < (init ++ [Byte.cr]).length := (List.getElem?_eq_some_iff.mp hi).1
    rw [List.length_append, List.length_singleton] at hc hlt
    rcases Nat.lt_or_ge i init.length with hinit | hinit
    · rwa [List.dropLast_concat, ← List.getElem?_append_left hinit]
    · obtain rfl : i = init.length := by omega
      rw [List.getElem?_concat_length] at hi
      exact absurd ⟨(Option.some.inj hi).symm, rfl⟩ hc
  · exact hi

namespace Source

variable {s : Source}

/-- The line after some whole lines. -/
theorem line_of_lines {lines body rest : Bytes} (hcontent : s.content = lines ++ (body ++ rest))
    (hlines : IsLines lines) (hbody : Byte.lf ∉ body)
    (hrest : rest = [] ∨ rest.head? = some Byte.lf) {number : UInt32}
    (hnumber : number.toNat = lines.count Byte.lf + 1) : s.line number = chompLine body := by
  obtain ⟨earlier, hearlier⟩ := lineStarts_of_isLines hlines
  have hcount : earlier.length = lines.count Byte.lf := by
    have hlength := congrArg List.length hearlier
    rw [length_lineStarts, List.length_append, List.length_singleton] at hlength
    omega
  have hstarts : s.lineStarts =
      earlier ++ lines.length :: lineStartsAfter (lines.length + body.length) rest := by
    rw [lineStarts, hcontent, TextDomain.lineStarts, lineStartsAfter_append,
      lineStartsAfter_append _ body, lineStartsAfter_eq_nil hbody, ← List.cons_append, Nat.zero_add]
    rw [TextDomain.lineStarts] at hearlier
    rw [hearlier]
    simp
  have hzero : number ≠ 0 := by
    rintro rfl
    cases hnumber
  have hthis : s.lineStarts[number.toNat - 1]? = some lines.length := by
    rw [hstarts, hnumber, Nat.add_sub_cancel, ← hcount]
    simp
  have hnext : s.lineStarts.getD number.toNat s.content.length =
      (lineStartsAfter (lines.length + body.length) rest).headD s.content.length := by
    rw [hstarts, hnumber, ← hcount, List.getD_eq_getElem?_getD,
      List.getElem?_append_right (Nat.le_add_right _ 1), Nat.add_sub_cancel_left,
      List.getElem?_cons_succ, ← List.head?_eq_getElem?, List.headD_eq_head?_getD]
  have hdrop : s.content.drop lines.length = body ++ rest := by rw [hcontent, List.drop_left]
  simp only [line, if_neg hzero, hthis, hnext, slice, hdrop]
  rcases hrest with rfl | hlf
  · rw [lineStartsAfter, List.headD_nil, hcontent]
    simp
  · obtain ⟨later, rfl⟩ := List.head?_eq_some_iff.mp hlf
    rw [lineStartsAfter, if_pos rfl, List.headD_cons, ← chompLine_append_lf hbody]
    have hsize : lines.length + body.length + 1 - lines.length = (body ++ [Byte.lf]).length := by
      rw [List.length_append, List.length_singleton]
      omega
    rw [hsize, List.append_cons body Byte.lf later, List.take_left]

/-- A byte that is no part of a line end stands in the text of its line, at its column. -/
theorem getElem?_line_location {offset : Nat} {c : UInt8} (hoffset : offset < 2 ^ 32 - 1)
    (hbyte : s.content[offset]? = some c) (hlf : c ≠ Byte.lf) (hcr : ¬ (c = Byte.cr ∧
      (s.content[offset + 1]? = some Byte.lf ∨ offset + 1 = s.content.length))) :
    (s.line (s.location offset).line)[(s.location offset).column.toNat - 1]? = some c := by
  obtain ⟨lines, start, htake, hlines, hstart⟩ := exists_lines (s.content.take offset)
  obtain ⟨tail, rest, hdrop, htail, hrest⟩ := exists_line (s.content.drop offset)
  obtain ⟨hline, hcolumn⟩ := s.location_of_lines hoffset htake hlines hstart
  have hcontent : s.content = lines ++ (start ++ tail ++ rest) := by
    rw [← List.take_append_drop offset s.content, htake, hdrop]
    simp
  have hbody : Byte.lf ∉ start ++ tail := by simp [hstart, htail]
  have hlength : lines.length + start.length = offset := by
    have hlt := (List.getElem?_eq_some_iff.mp hbyte).1
    rw [← List.length_append, ← htake, List.length_take]
    omega
  have hindex : (s.location offset).column.toNat - 1 = start.length := by omega
  have hfirst : (tail ++ rest)[0]? = some c := by
    rw [← hdrop, List.getElem?_drop]
    exact hbyte
  obtain ⟨tail, rfl⟩ : ∃ more, tail = c :: more := by
    cases tail with
    | cons d more => exact ⟨more, by rw [Option.some.inj hfirst]⟩
    | nil =>
      rw [List.nil_append, ← List.head?_eq_getElem?] at hfirst
      rcases hrest with rfl | hrest
      · cases hfirst
      · exact absurd (Option.some.inj (hfirst.symm.trans hrest)) hlf
  rw [line_of_lines hcontent hlines hbody hrest hline, hindex]
  refine getElem?_chompLine hbody (by simp) fun hend => hcr ⟨hend.1, ?_⟩
  -- The byte is the last of its line, so what follows it is the rest of the content.
  obtain rfl : tail = [] := by
    have hlast := hend.2
    rw [List.length_append, List.length_cons] at hlast
    exact List.eq_nil_of_length_eq_zero (by omega)
  rcases hrest with rfl | hrest
  · refine Or.inr ?_
    rw [hcontent]
    simp only [List.length_append, List.length_singleton, List.length_nil]
    omega
  · refine Or.inl ?_
    rw [← List.getElem?_drop, hdrop]
    rw [List.head?_eq_getElem?] at hrest
    simpa using hrest

/-! ## The order of places -/

theorem line_location {offset : Nat} (h : offset < 2 ^ 32 - 1) :
    (s.location offset).line.toNat = 1 + (s.content.take offset).count Byte.lf := by
  obtain ⟨lines, start, htake, hlines, hstart⟩ := exists_lines (s.content.take offset)
  rw [(s.location_of_lines h htake hlines hstart).1, htake, List.count_append,
    List.count_eq_zero.mpr hstart, Nat.add_comm, Nat.add_zero]

/-- A later offset has a later place. -/
theorem place_lt {a b : Nat} (hab : a < b) (hb : b < 2 ^ 32 - 1) :
    (s.location a).place < (s.location b).place := by
  have ha : a < 2 ^ 32 - 1 := Nat.lt_trans hab hb
  have htake : s.content.take b = s.content.take a ++ (s.content.drop a).take (b - a) := by
    rw [← List.take_add, Nat.add_sub_cancel' hab.le]
  refine Prod.Lex.toLex_lt_toLex.mpr ?_
  by_cases hlf : Byte.lf ∈ (s.content.drop a).take (b - a)
  · refine Or.inl ?_
    have hpos := List.count_pos_iff.mpr hlf
    change (s.location a).line.toNat < (s.location b).line.toNat
    rw [line_location ha, line_location hb, htake, List.count_append]
    omega
  · obtain ⟨lines, start, hlines, hwhole, hstart⟩ := exists_lines (s.content.take a)
    have hlater : s.content.take b = lines ++ (start ++ (s.content.drop a).take (b - a)) := by
      rw [htake, hlines, List.append_assoc]
    obtain ⟨hline, hcolumn⟩ := s.location_of_lines ha hlines hwhole hstart
    obtain ⟨hline', hcolumn'⟩ := s.location_of_lines hb hlater hwhole (by simp [hstart, hlf])
    have hle := (startsLine_length hlines hwhole hstart).le
    refine Or.inr ⟨hline.trans hline'.symm, ?_⟩
    change (s.location a).column.toNat < (s.location b).column.toNat
    omega

/-- Offsets, their lines and columns, and the texts of the lines agree. -/
theorem locations_agree (s : Source) (hsize : s.content.length < 2 ^ 32) :
    (∀ offset < 2 ^ 32 - 1,
      (s.location offset).line.toNat = 1 + (s.content.take offset).count Byte.lf ∧
      ∃ start, StartsLine s.content offset start ∧
        (s.location offset).column.toNat = 1 + (offset - start)) ∧
    StrictMonoOn (fun offset => (s.location offset).place) (Set.Iio (2 ^ 32 - 1)) ∧
    Set.InjOn (fun offset => (s.location offset).place) (Set.Iio (2 ^ 32 - 1)) ∧
    ∀ (offset : Nat) (c : UInt8), s.content[offset]? = some c → c ≠ Byte.lf →
      ¬ (c = Byte.cr ∧
        (s.content[offset + 1]? = some Byte.lf ∨ offset + 1 = s.content.length)) →
      (s.line (s.location offset).line)[(s.location offset).column.toNat - 1]? = some c := by
  have hmono : StrictMonoOn (fun offset => (s.location offset).place) (Set.Iio (2 ^ 32 - 1)) :=
    fun a _ b hb hab => place_lt hab hb
  refine ⟨fun offset hoffset => ⟨line_location hoffset, ?_⟩, hmono, hmono.injOn, ?_⟩
  · obtain ⟨lines, start, htake, hlines, hstart⟩ := exists_lines (s.content.take offset)
    refine ⟨lines.length, startsLine_length htake hlines hstart, ?_⟩
    rw [(s.location_of_lines hoffset htake hlines hstart).2, Nat.add_comm]
  · intro offset c hbyte
    have hlt := (List.getElem?_eq_some_iff.mp hbyte).1
    exact getElem?_line_location (by omega) hbyte

/-- A carriage return in a line, two before its end, an empty line, and the place after the end. -/
theorem locations_agree_returns :
    let s := Source.mk (ascii "a.php") (ascii "a\rb\r\r\n\n<?php\r")
    s.content.length < 2 ^ 32 ∧ s.content[3]? = some Byte.cr ∧
      (s.line (s.location 3).line)[(s.location 3).column.toNat - 1]? = some Byte.cr ∧
      s.line 1 = ascii "a\rb\r" ∧ s.line 2 = [] ∧ s.line 3 = ascii "<?php" ∧
      (s.location 12).place < (s.location 20).place := by
  intro s
  obtain ⟨-, hmono, -, hbytes⟩ := s.locations_agree (by decide)
  exact ⟨by decide, by decide, hbytes 3 Byte.cr (by decide) (by decide) (by decide), by decide,
    by decide, by decide, hmono (Set.mem_Iio.mpr (by decide)) (Set.mem_Iio.mpr (by decide))
      (by decide)⟩

end Source

end TextDomain
