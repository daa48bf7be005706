import TextDomain.Proofs.Arguments
import TextDomain.Renaming

/-!
# Calls and what is found in them

`Renaming.findingAt` is the finding of one call, named by the position of the function's name, and
`Renaming.findings_eq` says that a renaming finds these, call by call. What is found is a string
literal of the stream whose text is the old domain (`literal_of_mem_findings`). It is the first
literal of the last argument that has one, which need not be the last argument.

Which literal a call is checked for depends only on the kinds of the tokens. So giving string
literals new texts brings no literal to light that keeps its text (`mem_findings_of_renew`).
-/

namespace TextDomain

/-! ## The literal of a call -/

/-- Where the arguments stand depends on the kinds of the tokens only. -/
theorem map_position_argumentsFrom : ∀ (ts ts' : List Lexeme) (depth position : Nat)
    (pending pending' : Option Argument), ts'.map Lexeme.kind = ts.map Lexeme.kind →
      pending'.map Argument.position = pending.map Argument.position →
      (argumentsFrom depth pending' position ts').map Argument.position =
        (argumentsFrom depth pending position ts).map Argument.position
  | [], [], _, _, _, _, _, _ => rfl
  | [], _ :: _, _, _, _, _, h, _ => by simp at h
  | _ :: _, [], _, _, _, _, h, _ => by simp at h
  | t :: ts, t' :: ts', depth, position, pending, pending', h, hpending => by
    obtain ⟨hkind, h⟩ := List.cons.inj h
    have htoList : pending'.toList.map Argument.position =
        pending.toList.map Argument.position := by
      rw [← Option.toList_map, ← Option.toList_map, hpending]
    have ih := fun depth pending pending' =>
      map_position_argumentsFrom ts ts' depth (position + 1) pending pending' h
    rw [argumentsFrom, argumentsFrom, hkind]
    split
    · exact ih _ _ _ hpending
    · split
      · exact htoList
      · exact ih _ _ _ hpending
    · split
      · rw [List.map_append, List.map_append, htoList, ih _ none none rfl]
      · exact ih _ _ _ hpending
    · refine ih _ _ _ ?_
      cases pending <;> cases pending' <;> simp_all
    · exact ih _ _ _ hpending

/-- The argument of a call that holds its text domain, by the position of the open parenthesis. -/
theorem domainArgument_eq (tokens : List Lexeme) (start : Nat) :
    domainArgument start (tokens.drop start) =
      (nextOfKind tokens .openParen start).bind fun paren =>
        (arguments (paren + 1) (tokens.drop (paren + 1))).getLast? := by
  unfold domainArgument nextOfKind
  cases (tokens.drop start).findIdx? (·.kind == .openParen) with
  | none => rfl
  | some skipped => simp [List.drop_drop, Nat.add_assoc]

theorem literal_of_domainArgument {tokens : List Lexeme} {start : Nat} {a : Argument}
    (h : domainArgument start (tokens.drop start) = some a) :
    tokens[a.position]? = some ⟨.string, a.literal⟩ := by
  rw [domainArgument_eq, Option.bind_eq_some_iff] at h
  obtain ⟨paren, -, h⟩ := h
  obtain ⟨earlier, range, later, -, ha, -⟩ := getLast?_arguments_eq_some_iff.mp h
  exact (mem_of_literalIn? ha).2

theorem map_position_domainArgument {tokens tokens' : List Lexeme} (start : Nat)
    (h : tokens'.map Lexeme.kind = tokens.map Lexeme.kind) :
    (domainArgument start (tokens'.drop start)).map Argument.position =
      (domainArgument start (tokens.drop start)).map Argument.position := by
  have hdrop : ∀ n, (tokens'.drop n).map Lexeme.kind = (tokens.drop n).map Lexeme.kind := by
    intro n
    rw [List.map_drop, List.map_drop, h]
  have hnext : nextOfKind tokens' .openParen start = nextOfKind tokens .openParen start := by
    have hidx : ∀ ts : List Lexeme, ts.findIdx? (·.kind == .openParen) =
        (ts.map Lexeme.kind).findIdx? (· == .openParen) := by
      intro ts
      rw [List.findIdx?_map]
      rfl
    rw [nextOfKind, nextOfKind, hidx, hidx, hdrop]
  rw [domainArgument_eq, domainArgument_eq, hnext]
  cases nextOfKind tokens .openParen start with
  | none => rfl
  | some paren =>
    simp only [Option.bind_some, ← List.getLast?_map]
    exact congrArg List.getLast? (map_position_argumentsFrom _ _ _ _ _ _ (hdrop _) rfl)

/-! ## Call by call -/

namespace Renaming

variable {r : Renaming} {tokens : List Lexeme}

/-- The finding of the call whose function is named at a position. -/
def findingAt (r : Renaming) (tokens : List Lexeme) (i : Nat) : Option Finding :=
  match tokens[i]? with
  | none => none
  | some t =>
    if t.namesDomainFunction then r.findingIn t.text (i + 1) (tokens.drop (i + 1)) else none

theorem findingsFrom_drop (r : Renaming) (tokens : List Lexeme) (n : Nat) :
    ∀ position, position + n = tokens.length → r.findingsFrom position (tokens.drop position) =
      (List.range' position n).filterMap (r.findingAt tokens) := by
  induction n with
  | zero =>
    intro position h
    rw [List.drop_of_length_le (by omega)]
    rfl
  | succ n ih =>
    intro position h
    have hlt : position < tokens.length := by omega
    rw [List.drop_eq_getElem_cons hlt, findingsFrom, ih (position + 1) (by omega),
      List.range'_succ, List.filterMap_cons, findingAt, List.getElem?_eq_getElem hlt]
    dsimp only
    split
    · cases r.findingIn _ (position + 1) (tokens.drop (position + 1)) <;> rfl
    · rfl

/-- A renaming finds what it finds in each call. -/
theorem findings_eq (r : Renaming) (tokens : List Lexeme) : r.findings tokens =
    if r.isEffective then (List.range tokens.length).filterMap (r.findingAt tokens) else [] := by
  rw [findings, List.range_eq_range', ← r.findingsFrom_drop tokens _ 0 (Nat.zero_add _),
    List.drop_zero]

theorem mem_findings_iff {f : Finding} :
    f ∈ r.findings tokens ↔ r.isEffective = true ∧ ∃ i, r.findingAt tokens i = some f := by
  rw [findings_eq]
  split
  · rename_i heff
    rw [List.mem_filterMap]
    refine ⟨fun ⟨i, _, hi⟩ => ⟨heff, i, hi⟩, fun ⟨_, i, hi⟩ => ⟨i, ?_, hi⟩⟩
    rw [List.mem_range]
    by_contra hge
    rw [findingAt, List.getElem?_eq_none (by omega)] at hi
    cases hi
  · rename_i heff
    simp [heff]

theorem findingAt_eq_some_iff {i : Nat} {f : Finding} : r.findingAt tokens i = some f ↔
    ∃ name a, tokens[i]? = some name ∧ name.namesDomainFunction = true ∧
      domainArgument (i + 1) (tokens.drop (i + 1)) = some a ∧ unquote a.literal = r.old ∧
      f = ⟨a.position, name.text, r.replacement⟩ := by
  unfold findingAt findingIn
  constructor
  · intro h
    split at h
    · cases h
    · rename_i name hname
      split at h
      · rename_i hdomain
        split at h
        · cases h
        · rename_i a ha
          split at h
          · rename_i hold
            exact ⟨name, a, hname, hdomain, ha, hold, (Option.some.inj h).symm⟩
          · cases h
      · cases h
  · rintro ⟨name, a, hname, hdomain, ha, hold, rfl⟩
    simp only [hname, hdomain, ha, hold, if_true]

theorem replacement_of_mem_findings {f : Finding} (h : f ∈ r.findings tokens) :
    f.replacement = r.replacement := by
  obtain ⟨-, i, hi⟩ := mem_findings_iff.mp h
  obtain ⟨name, a, -, -, -, -, rfl⟩ := findingAt_eq_some_iff.mp hi
  rfl

/-- What is found is a string literal of the old domain. -/
theorem literal_of_mem_findings {f : Finding} (h : f ∈ r.findings tokens) :
    ∃ text, tokens[f.position]? = some ⟨.string, text⟩ ∧ unquote text = r.old := by
  obtain ⟨-, i, hi⟩ := mem_findings_iff.mp h
  obtain ⟨name, a, -, -, ha, hold, rfl⟩ := findingAt_eq_some_iff.mp hi
  exact ⟨a.literal, literal_of_domainArgument ha, hold⟩

/-- What is found in a call that is closed at `stop` is the first literal of the last argument that
has one. It stands in the last argument exactly if there is a literal there. -/
theorem findings_in_closed_calls (r : Renaming) (tokens : List Lexeme)
    (heff : r.isEffective = true) :
    r.findings tokens = (List.range tokens.length).filterMap (r.findingAt tokens) ∧
    ∀ i paren stop f, nextOfKind tokens .openParen (i + 1) = some paren →
      closing? tokens (paren + 1) = some stop → r.findingAt tokens i = some f →
      (argumentRanges tokens (paren + 1)).getLast?.map Prod.snd = some stop ∧
      (∃ earlier range later text,
        argumentRanges tokens (paren + 1) = earlier ++ range :: later ∧
        literalIn? tokens range = some ⟨f.position, text⟩ ∧
        ∀ other ∈ later, literalIn? tokens other = none) ∧
      ∃ last, lastArgument? tokens (paren + 1) = some last ∧
        (last.1 ≤ f.position ∧ f.position < last.2 ↔
          (literalIn? tokens last).isSome = true) := by
  refine ⟨by rw [findings_eq, if_pos heff], fun i paren stop f hparen hstop hf => ?_⟩
  obtain ⟨name, a, -, -, ha, -, rfl⟩ := findingAt_eq_some_iff.mp hf
  rw [domainArgument_eq, hparen, Option.bind_some] at ha
  obtain ⟨earlier, range, later, hranges, hliteral, hlater⟩ :=
    getLast?_arguments_eq_some_iff.mp ha
  exact ⟨snd_getLast?_argumentRanges hstop,
    ⟨earlier, range, later, a.literal, hranges, hliteral, hlater⟩, mem_lastArgument?_iff ha⟩

/-- A call of which the last argument is a variable has its first argument found. -/
theorem finding_before_last_argument :
    let r : Renaming := ⟨ascii "old", ascii "new"⟩
    let tokens : List Lexeme := [⟨.identifier, ascii "__"⟩, ⟨.openParen, ascii "("⟩,
      ⟨.string, ascii "'old'"⟩, ⟨.comma, ascii ","⟩, ⟨.var, ascii "$x"⟩,
      ⟨.closeParen, ascii ")"⟩]
    r.findings tokens = [⟨2, ascii "__", ascii "'new'"⟩] ∧
      ∃ last, lastArgument? tokens 2 = some last ∧ literalIn? tokens last = none ∧
        ¬ (last.1 ≤ 2 ∧ 2 < last.2) := by
  intro r tokens
  obtain ⟨-, hcalls⟩ := findings_in_closed_calls r tokens (by decide)
  obtain ⟨-, -, last, hlast, hiff⟩ := hcalls 0 1 5 ⟨2, ascii "__", ascii "'new'"⟩
    (by decide) (by decide) (by decide)
  obtain rfl : last = (4, 5) := Option.some.inj (hlast.symm.trans (by decide))
  have hnone : literalIn? tokens (4, 5) = none := by decide
  refine ⟨by decide, (4, 5), hlast, hnone, fun hmem => ?_⟩
  have hsome := hiff.mp hmem
  rw [hnone] at hsome
  cases hsome

end Renaming

/-! ## New texts for literals -/

/-- A token with a new text, if there is one. -/
def Lexeme.renew (l : Lexeme) (new : Option Bytes) : Lexeme :=
  ⟨l.kind, new.getD l.text⟩

/-- Tokens with the new text of each, by its position. -/
def renewAll (tokens : List Lexeme) (new : Nat → Option Bytes) : List Lexeme :=
  tokens.mapIdx fun i l => l.renew (new i)

@[simp] theorem map_kind_renewAll (tokens : List Lexeme) (new : Nat → Option Bytes) :
    (renewAll tokens new).map Lexeme.kind = tokens.map Lexeme.kind := by
  refine List.ext_getElem? fun i => ?_
  simp only [renewAll, List.getElem?_map, List.getElem?_mapIdx, Option.map_map]
  rfl

theorem getElem?_renewAll (tokens : List Lexeme) (new : Nat → Option Bytes) (i : Nat) :
    (renewAll tokens new)[i]? = tokens[i]?.map (·.renew (new i)) :=
  List.getElem?_mapIdx

/-- After string literals have been given new texts, a finding in a token that keeps its text was
found before. -/
theorem Renaming.mem_findings_of_renew {r : Renaming} {tokens : List Lexeme}
    {new : Nat → Option Bytes} {f : Finding}
    (hnew : ∀ i l, tokens[i]? = some l → (new i).isSome → l.kind = .string)
    (hf : f ∈ r.findings (renewAll tokens new)) (hkept : new f.position = none) :
    f ∈ r.findings tokens := by
  obtain ⟨heff, i, hi⟩ := mem_findings_iff.mp hf
  obtain ⟨name, a, hname, hdomain, ha, hold, rfl⟩ := findingAt_eq_some_iff.mp hi
  refine mem_findings_iff.mpr ⟨heff, i, findingAt_eq_some_iff.mpr ?_⟩
  -- The name of the function is no string literal, so it keeps its text.
  have hname' : tokens[i]? = some name := by
    rw [getElem?_renewAll, Option.map_eq_some_iff] at hname
    obtain ⟨l, hl, rfl⟩ := hname
    have hkind : l.kind = .identifier := by
      simp only [Lexeme.namesDomainFunction, Bool.and_eq_true, beq_iff_eq] at hdomain
      exact hdomain.1
    cases hi : new i with
    | none => exact hl
    | some text => simp [hnew i l hl (by simp [hi])] at hkind
  -- The literal stands at the same place and keeps its text by assumption.
  have hposition := map_position_domainArgument (i + 1) (map_kind_renewAll tokens new)
  rw [ha, Option.map_some, eq_comm, Option.map_eq_some_iff] at hposition
  obtain ⟨b, hb, hab⟩ := hposition
  have hliteral := literal_of_domainArgument ha
  dsimp only at hkept
  rw [getElem?_renewAll, ← hab, literal_of_domainArgument hb, hab, hkept] at hliteral
  obtain rfl : b = a := by
    cases b
    cases a
    simp_all [Lexeme.renew]
  exact ⟨name, b, hname', hdomain, hb, hold, rfl⟩

end TextDomain
