import Mathlib.Algebra.Group.Nat.Defs
import Mathlib.Data.List.Sort
import Mathlib.Order.Bounds.Basic
import TextDomain.Proofs.Arguments

/-!
# Where arguments end

The ends of the arguments of a call are given without walking over it. `IsClosing` is the first
parenthesis that closes the call, by counting, and an argument ends there and at every comma before
it that is outside all inner parentheses (`EndsArgument`). The list of these positions is the one
that the ranges of the arguments are made of (`mem_boundaries_iff`).

What stands at a position up to the end of a call depends on the tokens before it only, so two
streams with the same tokens up to there have the same arguments (`arguments_congr`).
-/

namespace TextDomain

/-- A call is closed at `stop`, by the first parenthesis outside all inner ones that closes. -/
def IsClosing (tokens : List Lexeme) (first stop : Nat) : Prop :=
  IsLeast {i | first ≤ i ∧ isOutermost tokens first .closeParen i = true} stop

/-- An argument of a call ends at `i`: the call is closed there, or there is a comma outside all
inner parentheses and the call is not closed before it. -/
def EndsArgument (tokens : List Lexeme) (first i : Nat) : Prop :=
  IsClosing tokens first i ∨
    first ≤ i ∧ isOutermost tokens first .comma i = true ∧
      ∀ stop, IsClosing tokens first stop → i < stop

/-- The positions at which the arguments of a call end. -/
def boundaries (tokens : List Lexeme) (first : Nat) : List Nat :=
  boundariesAmong tokens first (List.range' first (tokens.length - first))

variable {tokens tokens' : List Lexeme} {first i stop : Nat}

theorem exists_getElem?_of_isOutermost {kind : Kind} (h : isOutermost tokens first kind i = true) :
    ∃ t, tokens[i]? = some t ∧ t.kind = kind := by
  rw [isOutermost, Bool.and_eq_true, Option.any_eq_true] at h
  obtain ⟨⟨t, ht, hkind⟩, -⟩ := h
  exact ⟨t, ht, beq_iff_eq.mp hkind⟩

theorem lt_length_of_isOutermost {kind : Kind} (h : isOutermost tokens first kind i = true) :
    i < tokens.length := by
  obtain ⟨t, ht, -⟩ := exists_getElem?_of_isOutermost h
  exact (List.getElem?_eq_some_iff.mp ht).1

theorem isClosing_iff : IsClosing tokens first stop ↔
    first ≤ stop ∧ isOutermost tokens first .closeParen stop = true ∧
      ∀ j, first ≤ j → j < stop → isOutermost tokens first .closeParen j = false := by
  constructor
  · rintro ⟨⟨hfirst, hclose⟩, hleast⟩
    refine ⟨hfirst, hclose, fun j hj hlt => ?_⟩
    by_contra hother
    have hle := hleast ⟨hj, Bool.eq_true_of_not_eq_false hother⟩
    omega
  · rintro ⟨hfirst, hclose, hnone⟩
    refine ⟨⟨hfirst, hclose⟩, fun j ⟨hj, hother⟩ => ?_⟩
    by_contra hlt
    rw [hnone j hj (Nat.lt_of_not_le hlt)] at hother
    cases hother

theorem closing?_eq_some_iff : closing? tokens first = some stop ↔ IsClosing tokens first stop := by
  rw [closing?, List.find?_range'_eq_some, List.mem_range'_1, isClosing_iff]
  simp only [Bool.not_eq_true']
  constructor
  · rintro ⟨hclose, hrange, hnone⟩
    exact ⟨hrange.1, hclose, hnone⟩
  · rintro ⟨hfirst, hclose, hnone⟩
    have hlt := lt_length_of_isOutermost hclose
    exact ⟨hclose, by omega, hnone⟩

/-- A parenthesis outside all inner ones that closes is the end of the call, or comes after it. -/
theorem exists_isClosing_le (hfirst : first ≤ i)
    (h : isOutermost tokens first .closeParen i = true) :
    ∃ stop ≤ i, IsClosing tokens first stop := by
  have hex : ∃ j, first ≤ j ∧ isOutermost tokens first .closeParen j = true := ⟨i, hfirst, h⟩
  exact ⟨Nat.find hex, Nat.find_min' hex ⟨hfirst, h⟩, Nat.find_spec hex,
    fun j hj => Nat.find_min' hex hj⟩

/-- An argument ends at the commas and the parenthesis that no end of the call comes before. -/
theorem endsArgument_iff : EndsArgument tokens first i ↔
    first ≤ i ∧ (∀ j, first ≤ j → j < i → isOutermost tokens first .closeParen j = false) ∧
      (isOutermost tokens first .closeParen i = true ∨
        isOutermost tokens first .comma i = true) := by
  constructor
  · rintro (hclosing | ⟨hfirst, hcomma, hbefore⟩)
    · obtain ⟨hfirst, hclose, hnone⟩ := isClosing_iff.mp hclosing
      exact ⟨hfirst, hnone, Or.inl hclose⟩
    · refine ⟨hfirst, fun j hj hlt => ?_, Or.inr hcomma⟩
      by_contra hother
      obtain ⟨stop, hle, hstop⟩ := exists_isClosing_le hj (Bool.eq_true_of_not_eq_false hother)
      have hafter := hbefore stop hstop
      omega
  · rintro ⟨hfirst, hnone, hclose | hcomma⟩
    · exact Or.inl (isClosing_iff.mpr ⟨hfirst, hclose, hnone⟩)
    · refine Or.inr ⟨hfirst, hcomma, fun stop hstop => ?_⟩
      by_contra hle
      rcases Nat.lt_or_eq_of_le (Nat.le_of_not_lt hle) with hlt | rfl
      · have hopen := hnone stop hstop.1.1 hlt
        rw [hstop.1.2] at hopen
        cases hopen
      · -- No token is both a comma and a parenthesis.
        obtain ⟨t, ht, hkind⟩ := exists_getElem?_of_isOutermost hcomma
        obtain ⟨t', ht', hkind'⟩ := exists_getElem?_of_isOutermost hstop.1.2
        obtain rfl := Option.some.inj (ht.symm.trans ht')
        rw [hkind] at hkind'
        cases hkind'

/-! ## The list of boundaries -/

theorem boundariesAmong_sublist (tokens : List Lexeme) (first : Nat) :
    ∀ positions : List Nat, (boundariesAmong tokens first positions).Sublist positions
  | [] => List.Sublist.slnil
  | i :: positions => by
    have ih := boundariesAmong_sublist tokens first positions
    rw [boundariesAmong_cons]
    split
    · exact (List.nil_sublist positions).cons_cons i
    · split
      · exact ih.cons_cons i
      · exact ih.cons i

theorem pairwise_boundaries (tokens : List Lexeme) (first : Nat) :
    (boundaries tokens first).Pairwise (· < ·) :=
  List.Pairwise.sublist (boundariesAmong_sublist tokens first _) (List.pairwise_lt_range' 1)

/-- Of consecutive positions the boundaries are those up to the first that closes. -/
theorem mem_boundariesAmong_range' (tokens : List Lexeme) (first i n : Nat) : ∀ position,
    i ∈ boundariesAmong tokens first (List.range' position n) ↔
      (position ≤ i ∧ i < position + n) ∧
      (∀ j, position ≤ j → j < i → isOutermost tokens first .closeParen j = false) ∧
      (isOutermost tokens first .closeParen i = true ∨
        isOutermost tokens first .comma i = true) := by
  induction n with
  | zero =>
    intro position
    refine ⟨fun h => ?_, fun h => ?_⟩
    · cases h
    · omega
  | succ n ih =>
    intro position
    rw [List.range'_succ, boundariesAmong_cons]
    -- A position after this one is a boundary if this one does not close.
    have hlater : isOutermost tokens first .closeParen position = false →
        ((∀ j, position ≤ j → j < i → isOutermost tokens first .closeParen j = false) ↔
          ∀ j, position + 1 ≤ j → j < i → isOutermost tokens first .closeParen j = false) := by
      intro hopen
      refine ⟨fun h j hj => h j (by omega), fun h j hj hlt => ?_⟩
      rcases Nat.lt_or_eq_of_le hj with hj | rfl
      · exact h j hj hlt
      · exact hopen
    split
    · rename_i hclose
      rw [List.mem_singleton]
      refine ⟨?_, fun ⟨hrange, hnone, _⟩ => ?_⟩
      · rintro rfl
        exact ⟨by omega, fun j _ _ => by omega, Or.inl hclose⟩
      · by_contra hne
        have hopen := hnone position (Nat.le_refl _) (by omega)
        rw [hclose] at hopen
        cases hopen
    · rename_i hclose
      have hopen := Bool.eq_false_of_not_eq_true hclose
      rw [hlater hopen]
      split
      · rename_i hcomma
        rw [List.mem_cons, ih (position + 1)]
        rcases eq_or_ne i position with rfl | hne
        · simp only [true_or, true_iff]
          exact ⟨by omega, fun j _ _ => by omega, Or.inr hcomma⟩
        · simp only [hne, false_or]
          exact and_congr_left fun _ => by omega
      · rename_i hcomma
        rw [ih (position + 1)]
        refine and_congr_left fun ⟨_, hends⟩ => ?_
        have hne : i ≠ position := by
          rintro rfl
          exact hends.elim hclose hcomma
        omega

theorem mem_boundaries_iff : i ∈ boundaries tokens first ↔ EndsArgument tokens first i := by
  rw [boundaries, mem_boundariesAmong_range', endsArgument_iff]
  constructor
  · rintro ⟨hrange, hends⟩
    exact ⟨hrange.1, hends⟩
  · rintro ⟨hfirst, hnone, hends⟩
    have hlt : i < tokens.length := hends.elim lt_length_of_isOutermost lt_length_of_isOutermost
    exact ⟨by omega, hnone, hends⟩

/-! ## The ranges between boundaries -/

theorem snd_mem_of_mem_rangesFrom {range : Nat × Nat} :
    ∀ {start : Nat} {stops : List Nat}, range ∈ rangesFrom start stops → range.2 ∈ stops
  | _, [], h => absurd h List.not_mem_nil
  | start, stop :: stops, h => by
    rcases List.mem_cons.mp h with rfl | hlater
    · exact List.mem_cons_self
    · exact List.mem_cons_of_mem stop (snd_mem_of_mem_rangesFrom hlater)

theorem le_fst_of_mem_rangesFrom {range : Nat × Nat} :
    ∀ {start : Nat} {stops : List Nat}, stops.Pairwise (· < ·) → (∀ i ∈ stops, start ≤ i) →
      range ∈ rangesFrom start stops → start ≤ range.1
  | _, [], _, _, h => absurd h List.not_mem_nil
  | start, stop :: stops, hsorted, hstart, h => by
    obtain ⟨hstop, hsorted⟩ := List.pairwise_cons.mp hsorted
    rcases List.mem_cons.mp h with rfl | hlater
    · exact Nat.le_refl _
    · have hle := le_fst_of_mem_rangesFrom hsorted hstop hlater
      have hfirst := hstart stop List.mem_cons_self
      omega

/-- Ranges between increasing boundaries come one after the other. -/
theorem pairwise_rangesFrom : ∀ {start : Nat} {stops : List Nat}, stops.Pairwise (· < ·) →
    (rangesFrom start stops).Pairwise fun a b => a.2 < b.1
  | _, [], _ => List.Pairwise.nil
  | start, stop :: stops, hsorted => by
    obtain ⟨hstop, hsorted⟩ := List.pairwise_cons.mp hsorted
    exact List.pairwise_cons.mpr
      ⟨fun range hrange => le_fst_of_mem_rangesFrom hsorted hstop hrange,
        pairwise_rangesFrom hsorted⟩

theorem argumentRanges_eq (tokens : List Lexeme) (first : Nat) :
    argumentRanges tokens first = rangesFrom first (boundaries tokens first) := rfl

/-- The literals of the arguments of a call come in the order of the stream. -/
theorem pairwise_arguments (tokens : List Lexeme) (first : Nat) :
    (arguments first (tokens.drop first)).Pairwise fun a b => a.position < b.position := by
  rw [arguments_eq, argumentRanges_eq]
  refine List.Pairwise.filterMap _ (fun range range' hlt a ha b hb => ?_)
    (pairwise_rangesFrom (pairwise_boundaries tokens first))
  obtain ⟨⟨-, hstop⟩, -⟩ := mem_of_literalIn? ha
  obtain ⟨⟨hstart, -⟩, -⟩ := mem_of_literalIn? hb
  omega

/-- A literal of an argument comes before the end of that argument. -/
theorem exists_endsArgument_of_mem {a : Argument} (h : a ∈ arguments first (tokens.drop first)) :
    tokens[a.position]? = some ⟨.string, a.literal⟩ ∧
      ∃ stop, EndsArgument tokens first stop ∧ a.position < stop := by
  rw [arguments_eq, argumentRanges_eq] at h
  obtain ⟨range, hrange, ha⟩ := List.mem_filterMap.mp h
  obtain ⟨⟨-, hlt⟩, hliteral⟩ := mem_of_literalIn? ha
  exact ⟨hliteral, range.2, mem_boundaries_iff.mp (snd_mem_of_mem_rangesFrom hrange), hlt⟩

/-! ## What comes after a call -/

section Congr

variable (htake : tokens'.take stop = tokens.take stop)

include htake

theorem depthAt_congr (hi : i ≤ stop) : depthAt tokens' first i = depthAt tokens first i := by
  have hbefore : (tokens'.drop first).take (i - first) = (tokens.drop first).take (i - first) := by
    rw [← List.drop_take, ← List.drop_take, ← Nat.min_eq_left hi, ← List.take_take,
      ← List.take_take, htake]
  simp only [depthAt, hbefore]

theorem getElem?_congr (hi : i < stop) : tokens'[i]? = tokens[i]? := by
  rw [← List.getElem?_take_of_lt hi, htake, List.getElem?_take_of_lt hi]

theorem isOutermost_congr (hi : i < stop) (kind : Kind) :
    isOutermost tokens' first kind i = isOutermost tokens first kind i := by
  rw [isOutermost, isOutermost, getElem?_congr htake hi, depthAt_congr htake (Nat.le_of_lt hi)]

theorem IsClosing.congr (h : IsClosing tokens first stop)
    (hclose : tokens'[stop]?.any (·.kind == .closeParen) = true) :
    IsClosing tokens' first stop := by
  obtain ⟨hfirst, houter, hnone⟩ := isClosing_iff.mp h
  refine isClosing_iff.mpr ⟨hfirst, ?_, fun j hj hlt => ?_⟩
  · rw [isOutermost, Bool.and_eq_true] at houter ⊢
    exact ⟨hclose, by rw [depthAt_congr htake (Nat.le_refl _)]; exact houter.2⟩
  · rw [isOutermost_congr htake hlt]
    exact hnone j hj hlt

/-- Up to the end of a call the same tokens end its arguments. -/
theorem EndsArgument.congr (h : IsClosing tokens first stop) (h' : IsClosing tokens' first stop)
    (hi : EndsArgument tokens first i) : EndsArgument tokens' first i := by
  rcases hi with hi | ⟨hfirst, hcomma, hbefore⟩
  · rw [hi.unique h]
    exact Or.inl h'
  · refine Or.inr ⟨hfirst, ?_, fun other hother => ?_⟩
    · rwa [isOutermost_congr htake (hbefore stop h)]
    · rw [hother.unique h']
      exact hbefore stop h

theorem boundaries_congr (h : IsClosing tokens first stop) (h' : IsClosing tokens' first stop) :
    boundaries tokens' first = boundaries tokens first := by
  refine (pairwise_boundaries tokens' first).eq_of_mem_iff (pairwise_boundaries tokens first)
    fun i => ?_
  rw [mem_boundaries_iff, mem_boundaries_iff]
  exact ⟨EndsArgument.congr htake.symm h' h, EndsArgument.congr htake h h'⟩

theorem literalIn?_congr {range : Nat × Nat} (hrange : range.2 ≤ stop) :
    literalIn? tokens' range = literalIn? tokens range := by
  rw [literalIn?, literalIn?, ← List.head?_filterMap, ← List.head?_filterMap]
  congr 1
  refine List.filterMap_congr fun i hi => ?_
  rw [List.mem_range'_1] at hi
  rw [literalAt?, literalAt?, getElem?_congr htake (by omega)]

/-- Nothing after the parenthesis that closes a call has to do with its arguments. -/
theorem arguments_congr (h : IsClosing tokens first stop)
    (hclose : tokens'[stop]?.any (·.kind == .closeParen) = true) :
    arguments first (tokens'.drop first) = arguments first (tokens.drop first) := by
  rw [arguments_eq, arguments_eq, argumentRanges_eq, argumentRanges_eq,
    boundaries_congr htake h (h.congr htake hclose)]
  refine List.filterMap_congr fun range hrange => literalIn?_congr htake ?_
  rcases mem_boundaries_iff.mp (snd_mem_of_mem_rangesFrom hrange) with hend | ⟨-, -, hbefore⟩
  · exact Nat.le_of_eq (hend.unique h)
  · exact Nat.le_of_lt (hbefore stop h)

end Congr

/-! ## Arguments after any position -/

theorem argumentsAfter_eq (tokens : List Lexeme) {paren : UInt64} (h : paren.toNat < 2 ^ 64 - 1) :
    argumentsAfter tokens paren =
      arguments (paren.toNat + 1) (tokens.drop (paren.toNat + 1)) := by
  have hfirst : (paren + 1).toNat = paren.toNat + 1 := by
    rw [UInt64.toNat_add]
    exact Nat.mod_eq_of_lt (by simp only [UInt64.toNat_one]; omega)
  rw [argumentsAfter, hfirst]

/-- The arguments after a position are the first literals between the places at which an argument
ends. They stand in order, each before the end of its argument, so what comes after the last end of
a call that is never closed leaves no trace. Of a call that is closed the parenthesis counts, and
nothing after it. -/
theorem arguments_between_boundaries (tokens : List Lexeme) (paren : UInt64)
    (h : paren.toNat < 2 ^ 64 - 1) :
    let first := paren.toNat + 1
    let found := argumentsAfter tokens paren
    (∃ stops : List Nat, stops.Pairwise (· < ·) ∧
      (∀ i, i ∈ stops ↔ EndsArgument tokens first i) ∧
      found = (rangesFrom first stops).filterMap (literalIn? tokens)) ∧
    (found.Pairwise fun a b => a.position < b.position) ∧
    (∀ a ∈ found, tokens[a.position]? = some ⟨.string, a.literal⟩ ∧
      ∃ stop, EndsArgument tokens first stop ∧ a.position < stop) ∧
    ∀ stop, IsClosing tokens first stop → ∀ tokens' : List Lexeme,
      tokens'.take stop = tokens.take stop →
      tokens'[stop]?.any (·.kind == .closeParen) = true → argumentsAfter tokens' paren = found := by
  intro first found
  have hfound : found = arguments first (tokens.drop first) := argumentsAfter_eq tokens h
  rw [hfound]
  refine ⟨⟨boundaries tokens first, pairwise_boundaries tokens first, fun i => mem_boundaries_iff,
    arguments_eq tokens first⟩, pairwise_arguments tokens first,
    fun a ha => exists_endsArgument_of_mem ha, fun stop hstop tokens' htake hclose => ?_⟩
  rw [argumentsAfter_eq tokens' h]
  exact arguments_congr htake hstop hclose

/-- The literal of an inner call counts for the argument it is in, and one after the call for
none. -/
theorem arguments_between_boundaries_nested :
    let call : List Lexeme := [⟨.identifier, ascii "__"⟩, ⟨.openParen, ascii "("⟩,
      ⟨.identifier, ascii "f"⟩, ⟨.openParen, ascii "("⟩, ⟨.string, ascii "'x'"⟩,
      ⟨.comma, ascii ","⟩, ⟨.string, ascii "'y'"⟩, ⟨.closeParen, ascii ")"⟩,
      ⟨.comma, ascii ","⟩, ⟨.string, ascii "'d'"⟩, ⟨.closeParen, ascii ")"⟩]
    let later : List Lexeme := [⟨.comma, ascii ","⟩, ⟨.string, ascii "'z'"⟩,
      ⟨.closeParen, ascii ")"⟩]
    UInt64.toNat 1 < 2 ^ 64 - 1 ∧ IsClosing call 2 10 ∧
      argumentsAfter call 1 = [⟨4, ascii "'x'"⟩, ⟨9, ascii "'d'"⟩] ∧
      argumentsAfter (call ++ later) 1 = argumentsAfter call 1 := by
  intro call later
  have hparen : UInt64.toNat 1 < 2 ^ 64 - 1 := by decide
  obtain ⟨-, -, -, hclosed⟩ := arguments_between_boundaries call 1 hparen
  have hstop : IsClosing call 2 10 := closing?_eq_some_iff.mp (by decide)
  exact ⟨hparen, hstop, by decide, hclosed 10 hstop (call ++ later) (by decide) (by decide)⟩

end TextDomain
