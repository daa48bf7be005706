import Mathlib.Data.List.Basic
import TextDomain.Call

/-!
# Where the arguments of a call stand

The first token of a call is the one after its open parenthesis. `depthAt` counts the parentheses
that are open at a position of the call, and the call ends at the first parenthesis that closes it
(`closing?`). Its arguments stand between the commas outside all inner parentheses and that end
(`argumentRanges`). `arguments_eq` says that walking over the tokens finds the first literal of each
argument that has one.
-/

namespace TextDomain

/-- How many parentheses are open before the token at `i`, the one of the call included. -/
def depthAt (tokens : List Lexeme) (first i : Nat) : Int :=
  let before := (tokens.drop first).take (i - first)
  1 + before.countP (·.kind == .openParen) - before.countP (·.kind == .closeParen)

/-- A token of a kind, outside all inner parentheses. -/
def isOutermost (tokens : List Lexeme) (first : Nat) (kind : Kind) (i : Nat) : Bool :=
  tokens[i]?.any (·.kind == kind) && depthAt tokens first i == 1

/-- The position of the parenthesis that closes a call. -/
def closing? (tokens : List Lexeme) (first : Nat) : Option Nat :=
  (List.range' first (tokens.length - first)).find? (isOutermost tokens first .closeParen)

/-- Those of some positions at which an argument ends. -/
def boundariesAmong (tokens : List Lexeme) (first : Nat) (positions : List Nat) : List Nat :=
  (positions.takeWhile fun i => !isOutermost tokens first .closeParen i).filter
      (isOutermost tokens first .comma) ++
    (positions.find? (isOutermost tokens first .closeParen)).toList

/-- The ranges that end at some positions, the first of which starts at `start`. -/
def rangesFrom (start : Nat) : List Nat → List (Nat × Nat)
  | [] => []
  | stop :: stops => (start, stop) :: rangesFrom (stop + 1) stops

/-- Where the arguments of a call stand: the position of the first token of each, and the position
of the comma or the parenthesis after it. -/
def argumentRanges (tokens : List Lexeme) (first : Nat) : List (Nat × Nat) :=
  rangesFrom first
    (boundariesAmong tokens first (List.range' first (tokens.length - first)))

/-- The string literal at a position. -/
def literalAt? (tokens : List Lexeme) (i : Nat) : Option Argument :=
  (tokens[i]?.filter (·.kind == .string)).map fun t => ⟨i, t.text⟩

/-- The first string literal in a range. -/
def literalIn? (tokens : List Lexeme) (range : Nat × Nat) : Option Argument :=
  (List.range' range.1 (range.2 - range.1)).findSome? (literalAt? tokens)

/-- Where the last argument of a call stands that has a token. -/
def lastArgument? (tokens : List Lexeme) (first : Nat) : Option (Nat × Nat) :=
  ((argumentRanges tokens first).filter fun range => range.1 < range.2).getLast?

variable {tokens : List Lexeme} {first i : Nat} {t : Lexeme}

/-! ## Step by step -/

@[simp] theorem depthAt_self (tokens : List Lexeme) (first : Nat) :
    depthAt tokens first first = 1 := by
  simp [depthAt]

theorem depthAt_succ (hfirst : first ≤ i) (ht : tokens[i]? = some t) :
    depthAt tokens first (i + 1) = depthAt tokens first i +
      (if t.kind = .openParen then 1 else 0) - (if t.kind = .closeParen then 1 else 0) := by
  have htake : (tokens.drop first).take (i + 1 - first) =
      (tokens.drop first).take (i - first) ++ [t] := by
    have hget : (tokens.drop first)[i - first]? = some t := by
      rw [List.getElem?_drop, Nat.add_sub_cancel' hfirst, ht]
    rw [Nat.succ_sub hfirst, List.take_add_one, hget]
    rfl
  simp only [depthAt, htake, List.countP_append, List.countP_singleton, beq_iff_eq]
  split <;> split <;> push_cast <;> omega

theorem isOutermost_eq {depth : Nat} (ht : tokens[i]? = some t)
    (hdepth : depthAt tokens first i = depth) (kind : Kind) :
    isOutermost tokens first kind i = (t.kind == kind && decide (depth = 1)) := by
  rw [isOutermost, ht, hdepth]
  rcases eq_or_ne depth 1 with rfl | hne
  · simp
  · have hcast : ((depth : Int) == 1) = false := by
      rw [beq_eq_false_iff_ne]
      omega
    simp [hne, hcast]

theorem boundariesAmong_cons (tokens : List Lexeme) (first i : Nat) (positions : List Nat) :
    boundariesAmong tokens first (i :: positions) =
      if isOutermost tokens first .closeParen i then [i]
      else if isOutermost tokens first .comma i then i :: boundariesAmong tokens first positions
      else boundariesAmong tokens first positions := by
  unfold boundariesAmong
  cases hclose : isOutermost tokens first .closeParen i <;>
    cases hcomma : isOutermost tokens first .comma i <;> simp [hclose, hcomma]

theorem literalAt?_of_string (ht : tokens[i]? = some t) (hkind : t.kind = .string) :
    literalAt? tokens i = some ⟨i, t.text⟩ := by
  simp [literalAt?, ht, hkind]

theorem literalAt?_of_ne_string (ht : tokens[i]? = some t) (hkind : t.kind ≠ .string) :
    literalAt? tokens i = none := by
  simp [literalAt?, ht, hkind]

theorem literalIn?_of_le {range : Nat × Nat} (tokens : List Lexeme) (h : range.2 ≤ range.1) :
    literalIn? tokens range = none := by
  simp [literalIn?, Nat.sub_eq_zero_of_le h]

@[simp] theorem literalIn?_self (tokens : List Lexeme) (i : Nat) :
    literalIn? tokens (i, i) = none :=
  literalIn?_of_le tokens (Nat.le_refl i)

theorem literalIn?_succ {start : Nat} (tokens : List Lexeme) (h : start ≤ i) :
    literalIn? tokens (start, i + 1) = (literalIn? tokens (start, i) <|> literalAt? tokens i) := by
  have hrange : List.range' start (i + 1 - start) = List.range' start (i - start) ++ [i] := by
    rw [Nat.succ_sub h, List.range'_concat, Nat.one_mul, Nat.add_sub_cancel' h]
  rw [literalIn?, hrange, List.findSome?_append]
  simp [literalIn?]

/-- What a walk still finds from `position` on, in the argument that starts at `start` and those
after it. -/
theorem argumentsFrom_eq (tokens : List Lexeme) (first n : Nat) : ∀ position depth start : Nat,
    position + n = tokens.length → first ≤ position → start ≤ position →
    depthAt tokens first position = depth → 1 ≤ depth →
    argumentsFrom depth (literalIn? tokens (start, position)) position (tokens.drop position) =
      (rangesFrom start (boundariesAmong tokens first (List.range' position n))).filterMap
        (literalIn? tokens) := by
  induction n with
  | zero =>
    intro position depth start hlength _ _ _ _
    rw [List.drop_of_length_le (by omega)]
    rfl
  | succ n ih =>
    intro position depth start hlength hfirst hstart hdepth hpos
    have hlt : position < tokens.length := by omega
    have hrest := fun depth start => ih (position + 1) depth start (by omega) (by omega)
    rw [List.drop_eq_getElem_cons hlt, List.range'_succ, boundariesAmong_cons]
    have ht : tokens[position]? = some tokens[position] := List.getElem?_eq_getElem hlt
    generalize tokens[position] = t at ht ⊢
    have hnext := depthAt_succ hfirst ht
    rw [hdepth] at hnext
    have hliteral := literalIn?_succ tokens hstart
    -- A token that neither starts nor ends an argument only changes the depth.
    have hwalk : ∀ depth : Nat, t.kind ≠ .string → depthAt tokens first (position + 1) = depth →
        1 ≤ depth → argumentsFrom depth (literalIn? tokens (start, position)) (position + 1)
            (tokens.drop (position + 1)) =
          (rangesFrom start (boundariesAmong tokens first (List.range' (position + 1) n))).filterMap
            (literalIn? tokens) := by
      intro depth hne hdepth hpos
      have hkeep :
          literalIn? tokens (start, position) = literalIn? tokens (start, position + 1) := by
        rw [hliteral, literalAt?_of_ne_string ht hne]
        simp
      rw [hkeep, hrest depth start (by omega) hdepth hpos]
    rw [isOutermost_eq ht hdepth, isOutermost_eq ht hdepth, argumentsFrom]
    split
    · rename_i hkind
      rw [hkind] at hnext
      rw [hwalk (depth + 1) (by simp [hkind]) (by simpa using hnext) (by omega)]
      simp [hkind]
    · rename_i hkind
      rw [hkind] at hnext
      split
      · rename_i hone
        cases hpending : literalIn? tokens (start, position) <;>
          simp [hkind, hone, rangesFrom, hpending]
      · rename_i hdeep
        rw [hwalk (depth - 1) (by simp [hkind]) (by simp at hnext; omega) (by omega)]
        simp [hkind, hdeep]
    · rename_i hkind
      rw [hkind] at hnext
      split
      · rename_i hone
        rw [← literalIn?_self tokens (position + 1), hrest depth (position + 1) (by omega)
          (by simpa using hnext) (by omega)]
        cases hpending : literalIn? tokens (start, position) <;>
          simp [hkind, hone, rangesFrom, hpending]
      · rename_i hdeep
        rw [hwalk depth (by simp [hkind]) (by simpa using hnext) (by omega)]
        simp [hkind, hdeep]
    · rename_i hkind
      rw [literalAt?_of_string ht hkind] at hliteral
      rw [hkind] at hnext
      rw [← hliteral, hrest depth start (by omega) (by simpa using hnext) (by omega)]
      simp [hkind]
    · rename_i hopen hclose hcomma hstring
      rw [if_neg hopen, if_neg hclose] at hnext
      rw [hwalk depth hstring (by simpa using hnext) (by omega), beq_eq_false_iff_ne.mpr hclose,
        beq_eq_false_iff_ne.mpr hcomma]
      rfl

/-- The arguments of a call are the first literals of the ranges that have one. -/
theorem arguments_eq (tokens : List Lexeme) (first : Nat) :
    arguments first (tokens.drop first) =
      (argumentRanges tokens first).filterMap (literalIn? tokens) := by
  rw [arguments, argumentRanges]
  rcases Nat.le_or_le first tokens.length with hle | hge
  · have hwalk := argumentsFrom_eq tokens first (tokens.length - first) first 1 first (by omega)
      (Nat.le_refl _) (Nat.le_refl _) (by simp) (Nat.le_refl _)
    rwa [literalIn?_self] at hwalk
  · rw [List.drop_of_length_le hge, Nat.sub_eq_zero_of_le hge]
    rfl

/-! ## Literals in ranges -/

variable {range : Nat × Nat} {a : Argument}

theorem literal_of_literalAt? (h : literalAt? tokens i = some a) :
    a.position = i ∧ tokens[i]? = some ⟨.string, a.literal⟩ := by
  rw [literalAt?, Option.map_eq_some_iff] at h
  obtain ⟨t, ht, rfl⟩ := h
  obtain ⟨ht, hkind⟩ := Option.filter_eq_some_iff.mp ht
  rw [← beq_iff_eq.mp hkind]
  exact ⟨rfl, ht⟩

theorem mem_of_literalIn? (h : literalIn? tokens range = some a) :
    (range.1 ≤ a.position ∧ a.position < range.2) ∧
      tokens[a.position]? = some ⟨.string, a.literal⟩ := by
  obtain ⟨i, hi, ha⟩ := List.exists_of_findSome?_eq_some h
  obtain ⟨rfl, hliteral⟩ := literal_of_literalAt? ha
  rw [List.mem_range'_1] at hi
  exact ⟨by omega, hliteral⟩

theorem isSome_literalIn? {text : Bytes} (hi : range.1 ≤ i ∧ i < range.2)
    (ht : tokens[i]? = some ⟨.string, text⟩) : (literalIn? tokens range).isSome = true := by
  rw [literalIn?, List.findSome?_isSome_iff]
  refine ⟨i, List.mem_range'_1.mpr (by omega), ?_⟩
  rw [literalAt?_of_string ht rfl]
  rfl

/-- The last argument with a literal is the one that all others with a literal come before. -/
theorem getLast?_arguments_eq_some_iff : (arguments first (tokens.drop first)).getLast? = some a ↔
    ∃ earlier range later, argumentRanges tokens first = earlier ++ range :: later ∧
      literalIn? tokens range = some a ∧ ∀ other ∈ later, literalIn? tokens other = none := by
  rw [arguments_eq, List.getLast?_filterMap, List.findSome?_eq_some_iff]
  constructor
  · rintro ⟨later, range, earlier, hranges, ha, hlater⟩
    refine ⟨earlier.reverse, range, later.reverse, ?_, ha, fun other hother =>
      hlater other (List.mem_reverse.mp hother)⟩
    rw [← List.reverse_reverse (argumentRanges tokens first), hranges]
    simp
  · rintro ⟨earlier, range, later, hranges, ha, hlater⟩
    refine ⟨later.reverse, range, earlier.reverse, ?_, ha, fun other hother =>
      hlater other (List.mem_reverse.mp hother)⟩
    rw [hranges]
    simp

/-- The literal of a call stands in its last argument exactly if that has a literal. -/
theorem mem_lastArgument?_iff (h : (arguments first (tokens.drop first)).getLast? = some a) :
    ∃ last, lastArgument? tokens first = some last ∧
      (last.1 ≤ a.position ∧ a.position < last.2 ↔ (literalIn? tokens last).isSome = true) := by
  -- Empty arguments have no literal, so they can be left out.
  have hnonempty : (argumentRanges tokens first).filterMap (literalIn? tokens) =
      ((argumentRanges tokens first).filter fun range => range.1 < range.2).filterMap
        (literalIn? tokens) := by
    rw [List.filterMap_filter]
    refine List.filterMap_congr fun range _ => ?_
    split
    · rfl
    · rename_i hempty
      exact literalIn?_of_le tokens (by simpa using hempty)
  rw [arguments_eq, hnonempty] at h
  rw [lastArgument?]
  rcases List.eq_nil_or_concat'
    ((argumentRanges tokens first).filter fun range => range.1 < range.2) with
    hnil | ⟨init, last, hlast⟩
  · rw [hnil] at h
    cases h
  · rw [hlast] at h ⊢
    refine ⟨last, List.getLast?_concat, fun hmem => ?_, fun hsome => ?_⟩
    · obtain ⟨range, -, ha⟩ := List.mem_filterMap.mp (List.mem_of_getLast? h)
      exact isSome_literalIn? hmem (mem_of_literalIn? ha).2
    · obtain ⟨b, hb⟩ := Option.isSome_iff_exists.mp hsome
      rw [List.filterMap_append, List.filterMap_cons_some hb, List.filterMap_nil,
        List.getLast?_concat] at h
      obtain rfl := Option.some.inj h
      exact (mem_of_literalIn? hb).1

theorem snd_getLast?_rangesFrom (start : Nat) (stops : List Nat) :
    (rangesFrom start stops).getLast?.map Prod.snd = stops.getLast? := by
  induction stops generalizing start with
  | nil => rfl
  | cons stop stops ih =>
    have hrest := ih (stop + 1)
    cases stops with
    | nil => rfl
    | cons stop' stops =>
      rw [rangesFrom, rangesFrom, List.getLast?_cons_cons, List.getLast?_cons_cons]
      exact hrest

/-- The last argument of a call ends where the call is closed. -/
theorem snd_getLast?_argumentRanges {stop : Nat} (h : closing? tokens first = some stop) :
    (argumentRanges tokens first).getLast?.map Prod.snd = some stop := by
  rw [closing?] at h
  rw [argumentRanges, snd_getLast?_rangesFrom, boundariesAmong, h, Option.toList_some,
    List.getLast?_concat]

end TextDomain
