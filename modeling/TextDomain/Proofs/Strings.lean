import TextDomain.Proofs.Layout
import TextDomain.Proofs.Settling

/-!
# Where strings end

The grammar of quoted strings is one of units: a backslash with the byte after it, or one other byte
(`Quoted.units`). A string ends with the first unit that is its quote alone, and a string in double
quotes interpolates if a dollar sign or a brace stands alone before the start of a variable
(`Quoted.Interpolates`). A backslash takes away the meaning of the byte after it, whichever that is.

Tokens of code that start at a quote are read by this grammar (`Source.quoted_strings`).
-/

namespace TextDomain

namespace Quoted

/-- A text cut into units. A backslash that ends the text has no byte to take with it. -/
def units : Bytes → List Bytes
  | [] => []
  | [c] => [[c]]
  | c :: d :: s => if c = Byte.backslash then [c, d] :: units s else [c] :: units (d :: s)

/-- A dollar sign that stands alone, before a name or a brace, or a brace that stands alone, before
a dollar sign. -/
def StartsVariable (unit next : Bytes) : Prop :=
  unit = [Byte.dollar] ∧
      (Bytes.startsIn Byte.isNameStart next = true ∨ next.head? = some Byte.openBrace) ∨
    unit = [Byte.openBrace] ∧ next.head? = some Byte.dollar

/-- A variable starts with one of some units, which `rest` follows. -/
def Interpolates (us : List Bytes) (rest : Bytes) : Prop :=
  ∃ before unit after, us = before ++ unit :: after ∧ StartsVariable unit (after.flatten ++ rest)

/-! ## Units -/

theorem units_escape (c : UInt8) (s : Bytes) :
    units (Byte.backslash :: c :: s) = [Byte.backslash, c] :: units s := by
  rw [units, if_pos rfl]

theorem units_cons_of_ne {c : UInt8} (hc : c ≠ Byte.backslash) (s : Bytes) :
    units (c :: s) = [c] :: units s := by
  cases s with
  | nil => rfl
  | cons d s => rw [units, if_neg hc]

/-- Induction along the units of a text. -/
theorem units_induction {motive : Bytes → Prop} (nil : motive [])
    (lone : motive [Byte.backslash])
    (escape : ∀ c s, motive s → motive (Byte.backslash :: c :: s))
    (single : ∀ c s, c ≠ Byte.backslash → motive s → motive (c :: s)) (s : Bytes) : motive s := by
  induction s using units.induct with
  | case1 => exact nil
  | case2 c =>
    rcases eq_or_ne c Byte.backslash with rfl | hc
    · exact lone
    · exact single c [] hc nil
  | case3 c s ih => exact escape c s ih
  | case4 c d s hc ih => exact single c (d :: s) hc ih

theorem flatten_units (s : Bytes) : (units s).flatten = s := by
  induction s using units_induction with
  | nil => rfl
  | lone => rfl
  | escape c s ih =>
    rw [units_escape, List.flatten_cons, ih]
    rfl
  | single c s hc ih =>
    rw [units_cons_of_ne hc, List.flatten_cons, ih]
    rfl

/-- Units that others follow are whole, whatever they are followed by. -/
theorem units_flatten_append {s : Bytes} {us vs : List Bytes} (h : units s = us ++ vs)
    (hvs : vs ≠ []) (t : Bytes) : units (us.flatten ++ t) = us ++ units t := by
  -- only a backslash at the very end could join with `t`, and it would be the last unit of `s`
  induction s using units_induction generalizing us with
  | nil => exact absurd (List.append_eq_nil_iff.mp h.symm).2 hvs
  | lone =>
    obtain ⟨rfl, -⟩ | ⟨rfl, hnil⟩ := List.append_eq_singleton_iff.mp h.symm
    · rfl
    · exact absurd hnil hvs
  | escape c s ih =>
    rw [units_escape] at h
    obtain ⟨rfl, -⟩ | ⟨us, rfl, hrest⟩ := List.cons_eq_append_iff.mp h
    · rfl
    · exact (units_escape c _).trans (congrArg _ (ih hrest))
  | single c s hc ih =>
    rw [units_cons_of_ne hc] at h
    obtain ⟨rfl, -⟩ | ⟨us, rfl, hrest⟩ := List.cons_eq_append_iff.mp h
    · rfl
    · exact (units_cons_of_ne hc _).trans (congrArg _ (ih hrest))

/-! ## The end of a string -/

section

variable {quote : UInt8}

theorem body?_escape (c : UInt8) (s : Bytes) : body? quote (Byte.backslash :: c :: s) =
    (body? quote s).map fun body => Byte.backslash :: c :: body := by
  rw [body?, if_pos rfl]

theorem body?_cons_of_ne {c : UInt8} (hc : c ≠ Byte.backslash) (s : Bytes) :
    body? quote (c :: s) =
      if c = quote then some [c] else (body? quote s).map (c :: ·) := by
  cases s with
  | nil => simp [body?, hc]
  | cons d s => rw [body?, if_neg hc]

/-- A string ends with the first unit that is its quote. -/
theorem body?_eq_some (hquote : quote ≠ Byte.backslash) {s : Bytes} {before after : List Bytes}
    (h : units s = before ++ [quote] :: after) (hbefore : [quote] ∉ before) :
    body? quote s = some (before.flatten ++ [quote]) := by
  induction s using units_induction generalizing before with
  | nil => simp [units] at h
  | lone =>
    obtain ⟨rfl, hunit⟩ | ⟨-, hnil⟩ := List.append_eq_singleton_iff.mp h.symm
    · exact absurd (by simpa using (List.cons.inj hunit).1) hquote
    · cases hnil
  | escape c s ih =>
    rw [units_escape] at h
    obtain ⟨rfl, hunit⟩ | ⟨before, rfl, hrest⟩ := List.cons_eq_append_iff.mp h
    · simp at hunit
    · rw [body?_escape, ih hrest fun hmem => hbefore (List.mem_cons_of_mem _ hmem)]
      rfl
  | single c s hc ih =>
    rw [units_cons_of_ne hc] at h
    rw [body?_cons_of_ne hc]
    obtain ⟨rfl, hunit⟩ | ⟨before, rfl, hrest⟩ := List.cons_eq_append_iff.mp h
    · obtain rfl : c = quote := by simpa [eq_comm] using (List.cons.inj hunit).1
      rw [if_pos rfl]
      rfl
    · have hne : c ≠ quote := fun heq => hbefore (heq ▸ List.mem_cons_self)
      rw [if_neg hne, ih hrest fun hmem => hbefore (List.mem_cons_of_mem _ hmem)]
      rfl

theorem body?_eq_none {s : Bytes} (h : [quote] ∉ units s) : body? quote s = none := by
  induction s using units_induction with
  | nil => rfl
  | lone => rw [body?, if_pos rfl]
  | escape c s ih =>
    rw [units_escape] at h
    rw [body?_escape, ih fun hmem => h (List.mem_cons_of_mem _ hmem), Option.map_none]
  | single c s hc ih =>
    rw [units_cons_of_ne hc] at h
    have hne : c ≠ quote := fun heq => h (heq ▸ List.mem_cons_self)
    rw [body?_cons_of_ne hc, if_neg hne, ih fun hmem => h (List.mem_cons_of_mem _ hmem),
      Option.map_none]

end

/-! ## Variables in strings -/

theorem interpolates_escape (c : UInt8) (s : Bytes) :
    interpolates (Byte.backslash :: c :: s) = interpolates s := by
  rw [interpolates, if_pos rfl]

theorem startsVariable_single {c : UInt8} {s : Bytes} : StartsVariable [c] s ↔
    c = Byte.dollar ∧ (Bytes.startsIn Byte.isNameStart s = true ∨ s.head? = some Byte.openBrace) ∨
      c = Byte.openBrace ∧ s.head? = some Byte.dollar := by
  simp [StartsVariable]

theorem interpolates_cons_of_ne {c : UInt8} (hc : c ≠ Byte.backslash) (s : Bytes) :
    interpolates (c :: s) = true ↔ StartsVariable [c] s ∨ interpolates s = true := by
  cases s with
  | nil => simp [interpolates, StartsVariable]
  | cons d s =>
    rw [interpolates, if_neg hc, startsVariable_single]
    simp

theorem interpolates_units_cons {unit : Bytes} {us : List Bytes} {rest : Bytes} :
    Interpolates (unit :: us) rest ↔
      StartsVariable unit (us.flatten ++ rest) ∨ Interpolates us rest := by
  constructor
  · rintro ⟨before, u, after, h, hstarts⟩
    obtain ⟨rfl, hhead⟩ | ⟨before, rfl, hrest⟩ := List.cons_eq_append_iff.mp h
    · obtain ⟨rfl, rfl⟩ := List.cons.inj hhead
      exact Or.inl hstarts
    · exact Or.inr ⟨before, u, after, hrest, hstarts⟩
  · rintro (hstarts | ⟨before, u, after, rfl, hstarts⟩)
    · exact ⟨[], unit, us, rfl, hstarts⟩
    · exact ⟨unit :: before, u, after, rfl, hstarts⟩

@[simp] theorem not_interpolates_nil (rest : Bytes) : ¬ Interpolates [] rest := by
  simp [Interpolates]

theorem interpolates_units_append {us vs : List Bytes} {rest : Bytes} :
    Interpolates (us ++ vs) rest ↔ Interpolates us (vs.flatten ++ rest) ∨ Interpolates vs rest := by
  induction us with
  | nil => simp
  | cons unit us ih =>
    rw [List.cons_append, interpolates_units_cons, interpolates_units_cons, ih,
      List.flatten_append, List.append_assoc, or_assoc]

/-- A text interpolates if a variable starts with one of its units. -/
theorem interpolates_iff {s : Bytes} : interpolates s = true ↔ Interpolates (units s) [] := by
  induction s using units_induction with
  | nil => simp [interpolates, units]
  | lone =>
    have hlone : ¬ StartsVariable [Byte.backslash] [] := by simp [StartsVariable]
    change _ ↔ Interpolates [[Byte.backslash]] []
    simp [interpolates, interpolates_units_cons, hlone]
  | escape c s ih =>
    have hescape : ¬ StartsVariable [Byte.backslash, c] ((units s).flatten ++ []) := by
      simp [StartsVariable]
    rw [interpolates_escape, units_escape, interpolates_units_cons, ih]
    exact (or_iff_right hescape).symm
  | single c s hc ih =>
    rw [interpolates_cons_of_ne hc, units_cons_of_ne hc, interpolates_units_cons, ih,
      flatten_units, List.append_nil]

/-- A string interpolates if a variable starts with a unit before its closing quote. -/
theorem interpolates_body_iff {quote : UInt8} {s : Bytes} {before after : List Bytes}
    (h : units s = before ++ [quote] :: after) :
    interpolates (before.flatten ++ [quote]) = true ↔ Interpolates before [quote] := by
  have hclosing : ¬ StartsVariable [quote] [] := by simp [StartsVariable]
  rw [interpolates_iff, units_flatten_append h (List.cons_ne_nil _ _), units,
    interpolates_units_append]
  simp [interpolates_units_cons, hclosing]

theorem kind_eq_interpolatedString_iff {quote : UInt8} {body : Bytes} :
    kind quote body = .interpolatedString ↔
      quote = Byte.backtick ∨ quote = Byte.doubleQuote ∧ interpolates body = true := by
  unfold kind
  split <;> simp_all

theorem kind_eq_string {quote : UInt8} {body : Bytes}
    (h : kind quote body ≠ .interpolatedString) : kind quote body = .string := by
  rw [ne_eq, kind_eq_interpolatedString_iff] at h
  exact if_neg h

theorem isQuote_iff {c : UInt8} :
    isQuote c = true ↔ c ∈ [Byte.singleQuote, Byte.doubleQuote, Byte.backtick] := by
  simp [isQuote, or_assoc]

end Quoted

/-! ## Strings of a source -/

/-- How a string is read that starts at `quote`, before `rest`. -/
structure Step.ReadsQuoted (step : Step) (quote : UInt8) (rest : Bytes) : Prop where
  /-- It ends with the first unit that is its quote. -/
  closed : ∀ before after, Quoted.units rest = before ++ [quote] :: after → [quote] ∉ before →
    step.lexeme.text = quote :: (before.flatten ++ [quote]) ∧ step.error? = none ∧
    (step.lexeme.kind = .interpolatedString ↔ quote = Byte.backtick ∨
      quote = Byte.doubleQuote ∧ Quoted.Interpolates before [quote]) ∧
    (step.lexeme.kind ≠ .interpolatedString → step.lexeme.kind = .string)
  /-- Without such a unit it takes all there is, which is an error. -/
  unclosed : [quote] ∉ Quoted.units rest → step.lexeme = ⟨.error, quote :: rest⟩ ∧
    step.error?.map (·.fault.code) = some (ascii "L001")

namespace Source

variable {s : Source}

theorem readsQuoted_of_opened {i : Nat} {step : Step} {quote : UInt8} {rest : Bytes}
    (hstep : s.steps[i]? = some step) (hopened : Opened (s.tokens.take i))
    (hdrop : s.content.drop step.start = quote :: rest) (hquote : Quoted.isQuote quote = true) :
    step.ReadsQuoted quote rest := by
  have hlexeme := lexeme_of_opened hstep hopened
  rw [hdrop, Quoted.codeLexeme_of_isQuote hquote] at hlexeme
  rw [Quoted.isQuote_iff] at hquote
  constructor
  · intro before after hunits hbefore
    have hbackslash : quote ≠ Byte.backslash := by
      rintro rfl
      exact absurd hquote (by decide)
    simp only [Quoted.body?_eq_some hbackslash hunits hbefore] at hlexeme
    have hkind : step.lexeme.kind = Quoted.kind quote (before.flatten ++ [quote]) := by rw [hlexeme]
    have hsound : step.lexeme.kind ≠ .error ∧ step.lexeme.kind ≠ .eof := by
      rw [hkind, Quoted.kind]
      split <;> decide
    refine ⟨by rw [hlexeme], error?_of_sound hstep hsound, ?_, ?_⟩
    · rw [hkind, Quoted.kind_eq_interpolatedString_iff, Quoted.interpolates_body_iff hunits]
    · rw [hkind]
      exact Quoted.kind_eq_string
  · intro hunits
    simp only [Quoted.body?_eq_none hunits] at hlexeme
    have hfault : step.lexeme.fault? = some .openString := by
      rw [hlexeme]
      simp only [List.mem_cons, List.not_mem_nil, or_false] at hquote
      rcases hquote with rfl | rfl | rfl <;> rfl
    refine ⟨hlexeme, ?_⟩
    rw [error?_of_ne hstep (by rw [hlexeme]; simp), hfault]
    rfl

/-- Strings in code are read unit by unit, and what stands between the quotes of a literal is what
stands between its first and its last byte. -/
theorem quoted_strings (s : Source) :
    (∀ (i : Nat) (step : Step) (quote : UInt8) (rest : Bytes), s.steps[i]? = some step →
      Opened (s.tokens.take i) → s.content.drop step.start = quote :: rest →
      quote ∈ [Byte.singleQuote, Byte.doubleQuote, Byte.backtick] → step.ReadsQuoted quote rest) ∧
    ∀ t ∈ s.tokens, t.kind = .string → ∃ first inner last, t.text = first :: (inner ++ [last]) ∧
      unquote t.text = inner := by
  refine ⟨fun i step quote rest hstep hopened hdrop hquote => ?_, fun t ht hkind => ?_⟩
  · exact readsQuoted_of_opened hstep hopened hdrop (Quoted.isQuote_iff.mpr hquote)
  · obtain ⟨i, hi⟩ := List.mem_iff_getElem?.mp ht
    have hliteral : s.lexemes[i]? = some ⟨.string, t.text⟩ := by
      rw [lexemes, List.getElem?_map, hi, Option.map_some, ← hkind]
    obtain ⟨quote, inner, hquote, htext⟩ := shape_of_literal hliteral
    exact ⟨quote, inner, quote, htext, by rw [htext, unquote_of_quoted hquote]⟩

/-- A string with an escaped quote and a variable, a literal that ends with an escaped backslash,
and a string that has nothing but an escaped quote to end it. -/
theorem quoted_strings_escaped :
    let s := Source.mk (ascii "a.php") (ascii "<?php \"a\\\"\x7b$b\x7d\" 'c\\\\' \"d\\\"")
    let first : Step :=
      ⟨5, [.space Byte.space], ⟨.interpolatedString, ascii "\"a\\\"\x7b$b\x7d\""⟩⟩
    let literal : Token := ⟨⟨.string, ascii "'c\\\\'"⟩, 16⟩
    let last : Step := ⟨21, [.space Byte.space], ⟨.error, ascii "\"d\\\""⟩⟩
    s.steps[1]? = some first ∧ first.ReadsQuoted Byte.doubleQuote (s.content.drop 7) ∧
    literal ∈ s.tokens ∧ (∃ q inner r, literal.text = q :: (inner ++ [r]) ∧
      unquote literal.text = inner) ∧
    s.steps[3]? = some last ∧ last.ReadsQuoted Byte.doubleQuote (ascii "d\\\"") := by
  intro s first literal last
  obtain ⟨hread, hunquote⟩ := s.quoted_strings
  have hfirst : s.steps[1]? = some first := by decide +kernel
  have hliteral : literal ∈ s.tokens := by decide +kernel
  have hlast : s.steps[3]? = some last := by decide +kernel
  exact ⟨hfirst, hread 1 first _ _ hfirst (opened_of_modeAfter (by decide +kernel))
    (by decide +kernel) (by decide), hliteral, hunquote literal hliteral rfl, hlast,
    hread 3 last _ _ hlast (opened_of_modeAfter (by decide +kernel)) (by decide +kernel)
    (by decide)⟩

end Source

end TextDomain
