import TextDomain.Proofs.Boundaries
import TextDomain.Proofs.Findings

/-!
# Calls do not depend on what surrounds them

A call is looked for and read from its name on, so tokens before it only move it
(`Renaming.findingAt_append_right`). It is read up to the parenthesis that closes it, so tokens
after that do not matter either (`Renaming.findingAt_append_left`). What is found in a stream of
which all calls are closed is therefore found whatever follows it, and does not change what is found
there.
-/

namespace TextDomain

/-! ## Tokens before a call -/

/-- The argument, `n` positions later. -/
def Argument.shift (n : Nat) (a : Argument) : Argument :=
  { a with position := n + a.position }

/-- The finding, `n` positions later. -/
def Finding.shift (n : Nat) (f : Finding) : Finding :=
  { f with position := n + f.position }

theorem argumentsFrom_shift (n : Nat) : ∀ (ts : List Lexeme) (depth position : Nat)
    (pending : Option Argument),
    argumentsFrom depth (pending.map (Argument.shift n)) (n + position) ts =
      (argumentsFrom depth pending position ts).map (Argument.shift n)
  | [], _, _, _ => rfl
  | t :: ts, depth, position, pending => by
    have ih : ∀ depth pending,
        argumentsFrom depth (pending.map (Argument.shift n)) (n + position + 1) ts =
          (argumentsFrom depth pending (position + 1) ts).map (Argument.shift n) :=
      fun depth pending => argumentsFrom_shift n ts depth (position + 1) pending
    rw [argumentsFrom, argumentsFrom]
    split
    · exact ih (depth + 1) pending
    · split
      · exact Option.toList_map
      · exact ih (depth - 1) pending
    · split
      · rw [List.map_append, ← ih depth none, Option.toList_map]
        rfl
      · exact ih depth pending
    · refine Eq.trans ?_ (ih depth _)
      cases pending <;> rfl
    · exact ih depth pending

theorem domainArgument_shift (n position : Nat) (ts : List Lexeme) :
    domainArgument (n + position) ts = (domainArgument position ts).map (Argument.shift n) := by
  unfold domainArgument
  split
  · rfl
  · rename_i skipped _
    have hfirst : n + position + skipped + 1 = n + (position + skipped + 1) := by omega
    rw [← List.getLast?_map, arguments, arguments, hfirst, ← argumentsFrom_shift]
    rfl

/-! ## Tokens after a call -/

variable {tokens : List Lexeme}

theorem nextOfKind_append {kind : Kind} {start i : Nat} (h : nextOfKind tokens kind start = some i)
    (later : List Lexeme) : nextOfKind (tokens ++ later) kind start = some i := by
  rw [nextOfKind, Option.map_eq_some_iff] at h
  obtain ⟨skipped, hskipped, rfl⟩ := h
  rw [nextOfKind, List.drop_append, List.findIdx?_append, hskipped]
  rfl

/-- A call that is closed has the same arguments whatever comes after it. -/
theorem arguments_append {first stop : Nat} (h : closing? tokens first = some stop)
    (later : List Lexeme) :
    arguments first ((tokens ++ later).drop first) = arguments first (tokens.drop first) := by
  have hclosing := closing?_eq_some_iff.mp h
  obtain ⟨t, ht, hkind⟩ := exists_getElem?_of_isOutermost hclosing.1.2
  have hlt : stop < tokens.length := lt_length_of_isOutermost hclosing.1.2
  refine arguments_congr (List.take_append_of_le_length (Nat.le_of_lt hlt)) hclosing ?_
  rw [List.getElem?_append_left hlt, ht]
  simp [hkind]

/-! ## Call by call -/

/-- Every call of a stream is closed in it: an open parenthesis comes after the name of the
function, and the first one that does is closed. -/
def ClosesCalls (tokens : List Lexeme) : Prop :=
  ∀ i < tokens.length, tokens[i]?.any Lexeme.namesDomainFunction = true →
    ∃ paren ∈ nextOfKind tokens .openParen (i + 1), (closing? tokens (paren + 1)).isSome = true

instance (tokens : List Lexeme) : Decidable (ClosesCalls tokens) :=
  inferInstanceAs (Decidable (∀ i < tokens.length, _ → _))

namespace Renaming

/-- Tokens before a call move what is found in it. -/
theorem findingAt_append_right (r : Renaming) (tokens later : List Lexeme) (i : Nat) :
    r.findingAt (tokens ++ later) (tokens.length + i) =
      (r.findingAt later i).map (Finding.shift tokens.length) := by
  have hdrop : (tokens ++ later).drop (tokens.length + i + 1) = later.drop (i + 1) := by
    rw [Nat.add_assoc, ← List.drop_drop, List.drop_left]
  rw [findingAt, findingAt, List.getElem?_append_right (Nat.le_add_right _ _),
    Nat.add_sub_cancel_left, hdrop]
  split
  · rfl
  · split
    · rw [findingIn, findingIn, Nat.add_assoc, domainArgument_shift]
      cases domainArgument (i + 1) (later.drop (i + 1)) with
      | none => rfl
      | some a =>
        simp only [Option.map_some, Argument.shift]
        split <;> rfl
    · rfl

/-- Tokens after a call that is closed do not matter to it. -/
theorem findingAt_append_left (r : Renaming) (h : ClosesCalls tokens) (later : List Lexeme)
    {i : Nat} (hi : i < tokens.length) :
    r.findingAt (tokens ++ later) i = r.findingAt tokens i := by
  rw [findingAt, findingAt, List.getElem?_append_left hi]
  split
  · rfl
  · rename_i name hname
    split
    · rename_i hdomain
      obtain ⟨paren, hparen, hclosed⟩ := h i hi (by rw [hname]; exact hdomain)
      obtain ⟨stop, hstop⟩ := Option.isSome_iff_exists.mp hclosed
      have hargument : domainArgument (i + 1) ((tokens ++ later).drop (i + 1)) =
          domainArgument (i + 1) (tokens.drop (i + 1)) := by
        rw [domainArgument_eq, domainArgument_eq, nextOfKind_append hparen later, hparen,
          Option.bind_some, Option.bind_some, arguments_append hstop later]
      rw [findingIn, findingIn, hargument]
    · rfl

/-- What is found in a stream of which all calls are closed is found before anything that follows
it, and what is found there is what is found there alone. -/
theorem findings_append (r : Renaming) (tokens later : List Lexeme) (h : ClosesCalls tokens) :
    r.findings (tokens ++ later) =
      r.findings tokens ++ (r.findings later).map (Finding.shift tokens.length) := by
  rw [findings_eq, findings_eq, findings_eq]
  split
  · rw [List.length_append, List.range_add, List.filterMap_append, List.filterMap_map,
      List.map_filterMap]
    congr 1
    · exact List.filterMap_congr fun i hi =>
        r.findingAt_append_left h later (List.mem_range.mp hi)
    · exact List.filterMap_congr fun i _ => r.findingAt_append_right tokens later i
  · rfl

/-- One call inside another, with stray tokens after them that would go on with a call left open. -/
theorem findings_append_nested :
    let r : Renaming := ⟨ascii "old", ascii "new"⟩
    let calls : List Lexeme := [⟨.identifier, ascii "__"⟩, ⟨.openParen, ascii "("⟩,
      ⟨.identifier, ascii "_e"⟩, ⟨.openParen, ascii "("⟩, ⟨.string, ascii "'old'"⟩,
      ⟨.closeParen, ascii ")"⟩, ⟨.comma, ascii ","⟩, ⟨.string, ascii "\"old\""⟩,
      ⟨.closeParen, ascii ")"⟩]
    let later : List Lexeme := [⟨.comma, ascii ","⟩, ⟨.string, ascii "'x'"⟩,
      ⟨.closeParen, ascii ")"⟩, ⟨.identifier, ascii "_x"⟩, ⟨.openParen, ascii "("⟩,
      ⟨.string, ascii "'old'"⟩, ⟨.closeParen, ascii ")"⟩]
    ClosesCalls calls ∧
      r.findings calls = [⟨7, ascii "__", ascii "'new'"⟩, ⟨4, ascii "_e", ascii "'new'"⟩] ∧
      r.findings later = [⟨5, ascii "_x", ascii "'new'"⟩] ∧
      r.findings (calls ++ later) = [⟨7, ascii "__", ascii "'new'"⟩,
        ⟨4, ascii "_e", ascii "'new'"⟩, ⟨14, ascii "_x", ascii "'new'"⟩] := by
  intro r calls later
  have hclosed : ClosesCalls calls := by decide
  have hcalls : r.findings calls =
      [⟨7, ascii "__", ascii "'new'"⟩, ⟨4, ascii "_e", ascii "'new'"⟩] := by decide
  have hlater : r.findings later = [⟨5, ascii "_x", ascii "'new'"⟩] := by decide
  refine ⟨hclosed, hcalls, hlater, ?_⟩
  rw [findings_append r calls later hclosed, hcalls, hlater]
  rfl

end Renaming

end TextDomain
