import Mathlib.Logic.Function.Iterate
import Mathlib.Order.Bounds.Basic
import TextDomain.Proofs.Rereading

/-!
# Fixing settles

A pass replaces the literals that are found and nothing else (`Renaming.content_pass`). All of these
have the length of the old domain in quotes, and all new texts have the length of the new one, so a
pass changes nothing only if every literal that is found is the new one already
(`Renaming.revise_eq_self_iff`). Passes are repeated until then, or given up (`Renaming.lint_spec`).

A new domain that is closed leaves the tokens of a content as they are, so the second pass finds
nothing but new literals (`Renaming.revise_revise`).
-/

namespace TextDomain

/-! ## One pass -/

/-- The replacement that a finding asks for. -/
def Finding.op (f : Finding) : Nat × Bytes :=
  (f.position, f.replacement)

namespace Draft

variable {d : Draft} {source : Source} {new : Nat → Option Bytes}

/-- An accepting draft takes the replacement of every finding. -/
theorem reportOne_eq (r : Renaming) (h : d.accepting = true) (f : Finding) :
    r.reportOne d f = (d.report f.position (r.message f.function) Renaming.issueCode).2.replace
      f.position f.replacement := by
  have hhost : Host.report f.position (r.message f.function) Renaming.issueCode d =
      d.report f.position (r.message f.function) Renaming.issueCode := rfl
  rw [Renaming.reportOne, hhost, report]
  cases htoken : d.tokens[f.position]? with
  | some token =>
    simp only [h]
    rfl
  | none =>
    have hsize : ¬ f.position < d.tokens.size := by
      rw [Array.getElem?_eq_none_iff] at htoken
      omega
    simp only [replace, if_neg hsize]

theorem accepting_reportOne (r : Renaming) (h : d.accepting = true) (f : Finding) :
    (r.reportOne d f).accepting = true := by
  rw [reportOne_eq r h, replace, report]
  split <;> split <;> exact h

theorem holds_reportAll (r : Renaming) (fs : List Finding) (haccept : d.accepting = true)
    (h : d.Holds source new) : (fs.foldl r.reportOne d).Holds source
      fun i => lastText (fs.map Finding.op) i <|> new i := by
  induction fs generalizing d new with
  | nil => simpa [lastText] using h
  | cons f fs ih =>
    have hone : (r.reportOne d f).Holds source
        (Function.update new f.position (some f.replacement)) := by
      rw [reportOne_eq r haccept]
      exact (h.report _ _ _).replace _ _
    have hrest := ih (accepting_reportOne r haccept f) hone
    rwa [lastText_orElse_update] at hrest

theorem Holds.rename (r : Renaming) (haccept : d.accepting = true) (h : d.Holds source new) :
    (d.rename r).Holds source
      fun i => lastText ((r.findings source.lexemes).map Finding.op) i <|> new i := by
  have hlexemes : d.lexemes = source.lexemes := by
    rw [lexemes, h.tokens_eq]
    rfl
  rw [← hlexemes]
  exact holds_reportAll r (r.findings d.lexemes) haccept
    ⟨h.source_eq, h.tokens_eq, h.size_marks, h.getElem_marks⟩

end Draft

namespace Renaming

/-- The text that a renaming has for the token at a position: the new literal, if the token is one
that it found. -/
def renewal (r : Renaming) (tokens : List Lexeme) (i : Nat) : Option Bytes :=
  if ∃ f ∈ r.findings tokens, f.position = i then some r.replacement else none

variable {r : Renaming} {path content : Bytes}

theorem lastText_map_op {text : Bytes} {fs : List Finding} (h : ∀ f ∈ fs, f.replacement = text)
    (i : Nat) : Draft.lastText (fs.map Finding.op) i =
      if ∃ f ∈ fs, f.position = i then some text else none := by
  induction fs with
  | nil => simp [Draft.lastText]
  | cons f fs ih =>
    have hf : f.replacement = text := h f List.mem_cons_self
    rw [List.map_cons, Finding.op, Draft.lastText, hf,
      ih fun g hg => h g (List.mem_cons_of_mem _ hg)]
    by_cases hlater : ∃ g ∈ fs, g.position = i
    · simp [hlater]
    · simp [hlater]

theorem renewal_eq_some_iff {tokens : List Lexeme} {i : Nat} {text : Bytes} :
    r.renewal tokens i = some text ↔
      (∃ f ∈ r.findings tokens, f.position = i) ∧ text = r.replacement := by
  rw [renewal]
  split <;> simp_all [eq_comm]

theorem kind_of_renewal {tokens : List Lexeme} {i : Nat} {l : Lexeme} {text : Bytes}
    (hl : tokens[i]? = some l) (h : r.renewal tokens i = some text) : l.kind = .string := by
  obtain ⟨⟨f, hf, rfl⟩, -⟩ := renewal_eq_some_iff.mp h
  obtain ⟨text, hliteral, -⟩ := literal_of_mem_findings hf
  rw [Option.some.inj (hl.symm.trans hliteral)]

/-- One pass replaces the literals that are found and nothing else. -/
theorem content_pass (r : Renaming) (path content : Bytes) : (r.pass path content).content =
    (Source.mk path content).rewrite (r.renewal (Source.mk path content).lexemes) := by
  have hholds := (Draft.holds_ofSource ⟨path, content⟩ true ruleName).rename r rfl
  rw [pass, Draft.content_of_holds hholds]
  congr 1
  funext i
  rw [Option.orElse_eq_orElse, Option.orElse_eq_or, Option.or_none, renewal,
    lastText_map_op fun f hf => replacement_of_mem_findings hf]

/-- The name of a file does not matter. -/
theorem content_pass_eq_revise (r : Renaming) (path content : Bytes) :
    (r.pass path content).content = r.revise content := by
  rw [revise, content_pass, content_pass]
  rfl

theorem revise_eq (r : Renaming) (path content : Bytes) : r.revise content =
    (Source.mk path content).rewrite (r.renewal (Source.mk path content).lexemes) := by
  rw [← content_pass_eq_revise r path, content_pass]

end Renaming

/-! ## When a pass changes nothing -/

theorem unquote_of_quoted {quote : UInt8} (h : quote = Byte.singleQuote ∨ quote = Byte.doubleQuote)
    (inner : Bytes) : unquote (quote :: (inner ++ [quote])) = inner := by
  have hquote : isStringQuote quote = true := by
    rcases h with rfl | rfl <;> rfl
  rw [unquote, dropOpeningQuote, if_pos hquote, dropClosingQuote, List.getLast?_concat]
  simp only [hquote, if_true, List.dropLast_concat]

theorem Cursor.exists_read_of_mem_steps {c : Cursor} {step : Step} (h : step ∈ c.steps) :
    ∃ mode s, step.reading = Mode.read mode s := by
  induction c using next_induction with
  | last c heof =>
    rw [steps_of_eof heof, List.mem_singleton] at h
    exact ⟨c.mode, c.rest, congrArg Step.reading h⟩
  | more c heof ih =>
    rw [steps_of_ne heof] at h
    rcases List.mem_cons.mp h with rfl | hlater
    · exact ⟨c.mode, c.rest, rfl⟩
    · exact ih hlater

/-- A string literal of a source stands in quotes. -/
theorem Source.shape_of_literal {s : Source} {i : Nat} {text : Bytes}
    (h : s.lexemes[i]? = some ⟨.string, text⟩) : ∃ quote inner,
      (quote = Byte.singleQuote ∨ quote = Byte.doubleQuote) ∧
        text = quote :: (inner ++ [quote]) := by
  rw [lexemes_eq] at h
  obtain ⟨step, hstep, hlexeme⟩ := List.mem_map.mp (List.mem_of_getElem? h)
  obtain ⟨mode, rest, hread⟩ := Cursor.exists_read_of_mem_steps hstep
  rw [Step.lexeme, hread] at hlexeme
  have hkind : (mode.read rest).lexeme.kind = .string := by rw [hlexeme]
  obtain ⟨-, quote, inner, hquote, htext⟩ := shape_of_read hkind
  exact ⟨quote, inner, hquote, by rw [← htext, hlexeme]⟩

namespace Renaming

variable {r : Renaming} {content : Bytes}

/-- What is found in a source is the old domain in quotes. -/
theorem length_of_mem_findings {source : Source} {f : Finding}
    (h : f ∈ r.findings source.lexemes) : ∃ text,
      source.lexemes[f.position]? = some ⟨.string, text⟩ ∧ text.length = r.old.length + 2 := by
  obtain ⟨text, hliteral, hold⟩ := literal_of_mem_findings h
  obtain ⟨quote, inner, hquote, rfl⟩ := Source.shape_of_literal hliteral
  rw [unquote_of_quoted hquote] at hold
  refine ⟨_, hliteral, ?_⟩
  rw [← hold]
  simp

/-- A pass changes nothing exactly if every literal that is found is the new one already. -/
theorem revise_eq_self_iff (r : Renaming) (path content : Bytes) : r.revise content = content ↔
    ∀ f ∈ r.findings (Source.mk path content).lexemes,
      (Source.mk path content).lexemes[f.position]? = some ⟨.string, r.replacement⟩ := by
  rw [revise_eq r path]
  have hlengths : ∀ i l text, (Source.mk path content).lexemes[i]? = some l →
      r.renewal (Source.mk path content).lexemes i = some text →
      l.text.length = r.old.length + 2 ∧ text.length = r.new.length + 2 := by
    intro i l text hl htext
    obtain ⟨⟨f, hf, rfl⟩, rfl⟩ := renewal_eq_some_iff.mp htext
    obtain ⟨text, hliteral, hlength⟩ := length_of_mem_findings hf
    obtain rfl := Option.some.inj (hl.symm.trans hliteral)
    exact ⟨hlength, by simp [replacement]⟩
  rw [Source.rewrite_eq_content_iff hlengths]
  constructor
  · intro h f hf
    obtain ⟨text, hliteral, -⟩ := length_of_mem_findings hf
    have htext := h f.position _ _ hliteral (renewal_eq_some_iff.mpr ⟨⟨f, hf, rfl⟩, rfl⟩)
    rw [hliteral, ← htext]
  · intro h i l text hl htext
    obtain ⟨⟨f, hf, rfl⟩, rfl⟩ := renewal_eq_some_iff.mp htext
    rw [Option.some.inj (hl.symm.trans (h f hf))]

/-- A closed new domain is in place after one pass. -/
theorem revise_revise (hclosed : Quoted.isClosed r.new = true)
    (hopener : ∀ f ∈ r.findings (Source.mk path content).lexemes,
      ∀ token ∈ (Source.mk path content).tokens[f.position]?,
        Heredoc.endsInOpener (content.take token.offset) = false) :
    r.revise (r.revise content) = r.revise content := by
  set source := Source.mk path content
  have hadmits : source.Admits (r.renewal source.lexemes) := by
    intro i step hstep text htext
    obtain ⟨⟨f, hf, rfl⟩, rfl⟩ := renewal_eq_some_iff.mp htext
    have htoken : source.tokens[f.position]? = some step.token := by
      rw [Source.tokens, List.getElem?_map, hstep, Option.map_some]
    have hlexeme : source.lexemes[f.position]? = some step.lexeme := by
      rw [Source.lexemes, List.getElem?_map, htoken]
      rfl
    exact ⟨kind_of_renewal hlexeme htext, ⟨r.new, hclosed, rfl⟩, hopener f hf _ htoken⟩
  have hlexemes := Source.lexemes_rewrite hadmits path
  rw [← r.revise_eq path content] at hlexemes
  rw [revise_eq_self_iff r path, hlexemes]
  intro f hf
  obtain ⟨text, hliteral, -⟩ := literal_of_mem_findings hf
  rw [hliteral]
  cases hnew : r.renewal source.lexemes f.position with
  | none =>
    -- What is found in a token that keeps its text was found, and replaced, in the first pass.
    have hkinds : ∀ i l, source.lexemes[i]? = some l →
        (r.renewal source.lexemes i).isSome → l.kind = .string := by
      intro i l hl hi
      obtain ⟨text, htext⟩ := Option.isSome_iff_exists.mp hi
      exact kind_of_renewal hl htext
    have hfound := mem_findings_of_renew hkinds hf hnew
    rw [renewal_eq_some_iff.mpr ⟨⟨f, hfound, rfl⟩, rfl⟩] at hnew
    cases hnew
  | some new =>
    obtain ⟨-, rfl⟩ := renewal_eq_some_iff.mp hnew
    rw [getElem?_renewAll, hnew, Option.map_eq_some_iff] at hliteral
    obtain ⟨l, -, hl⟩ := hliteral
    have htext : r.replacement = text := congrArg Lexeme.text hl
    rw [← htext]

end Renaming

/-! ## Pass after pass -/

theorem isLeast_stable_succ {α : Type} {f : α → α} {x : α} {k : Nat} (hne : f x ≠ x)
    (h : IsLeast {k | f^[k + 1] (f x) = f^[k] (f x)} k) :
    IsLeast {k | f^[k + 1] x = f^[k] x} (k + 1) := by
  refine ⟨h.1, fun j hj => ?_⟩
  cases j with
  | zero => exact absurd hj hne
  | succ j => exact Nat.succ_le_succ (h.2 hj)

namespace Renaming

variable {r : Renaming} {path content : Bytes}

/-- Passes are repeated until the first that changes nothing, or are given up. -/
theorem settle_spec (r : Renaming) (path : Bytes) (left done applied : Nat) (content : Bytes) :
    let settled := (r.settle path left done applied content).1
    (settled.failed = true ∧ ∀ i < left, r.revise^[i + 1] content ≠ r.revise^[i] content) ∨
    ∃ k < left, IsLeast {k | r.revise^[k + 1] content = r.revise^[k] content} k ∧
      settled.failed = false ∧ settled.content = r.revise^[k] content ∧
      settled.passes = done + k + 1 := by
  induction left generalizing done applied content with
  | zero => exact Or.inl ⟨rfl, fun i hi => absurd hi (Nat.not_lt_zero i)⟩
  | succ left ih =>
    simp only [settle, content_pass_eq_revise]
    split
    · rename_i hfix
      exact Or.inr ⟨0, Nat.succ_pos left, ⟨hfix, fun j _ => Nat.zero_le j⟩, rfl, rfl, rfl⟩
    · rename_i hne
      rcases ih (done + 1) (applied + (r.pass path content).editCount) (r.revise content) with
        ⟨hfailed, hall⟩ | ⟨k, hk, hleast, hfailed, hcontent, hpasses⟩
      · refine Or.inl ⟨hfailed, fun i hi => ?_⟩
        cases i with
        | zero => exact hne
        | succ i => exact hall i (Nat.lt_of_succ_lt_succ hi)
      · refine Or.inr ⟨k + 1, Nat.succ_lt_succ hk, isLeast_stable_succ hne hleast, hfailed,
          hcontent, ?_⟩
        rw [hpasses]
        omega

/-- Fixing ends with the first pass that changes nothing, which comes after `k` others, or is given
up. -/
theorem lint_spec (r : Renaming) (path content : Bytes) :
    let report := (r.lint true path content).1
    (report.gaveUp = true ∧ ∀ i < 50, r.revise^[i + 1] content ≠ r.revise^[i] content) ∨
    ∃ k < 50, IsLeast {k | r.revise^[k + 1] content = r.revise^[k] content} k ∧
      report.gaveUp = false ∧ report.after = r.revise^[k] content ∧ report.passes = k + 1 := by
  have hsettle := r.settle_spec path maxPasses 0 0 content
  simp only [Nat.zero_add] at hsettle
  exact hsettle

/-- A content that a pass leaves as it is settles at once. -/
theorem lint_of_stable (h : r.revise content = content) :
    let report := (r.lint true path content).1
    report.gaveUp = false ∧ report.passes = 1 ∧ report.changed = false := by
  intro report
  rcases r.lint_spec path content with ⟨-, hall⟩ | ⟨k, -, hleast, hgaveUp, hafter, hpasses⟩
  · exact absurd h (hall 0 (by decide))
  · obtain rfl : k = 0 := Nat.le_zero.mp (hleast.2 h)
    refine ⟨hgaveUp, hpasses, ?_⟩
    have hcontent : report.content = content := rfl
    rw [Report.changed, hafter, hcontent]
    simp

/-- Fixing with a closed new domain comes to an end after two passes at most. Every literal that is
found is replaced by the new one, and all else is as it was. -/
theorem lint_of_isClosed (r : Renaming) (path content : Bytes)
    (hclosed : Quoted.isClosed r.new = true)
    (hopener : ∀ f ∈ r.findings (Source.mk path content).lexemes,
      ∀ token ∈ (Source.mk path content).tokens[f.position]?,
        Heredoc.endsInOpener (content.take token.offset) = false) :
    let source := Source.mk path content
    let report := (r.lint true path content).1
    report.gaveUp = false ∧ report.passes ≤ 2 ∧
      report.after = source.rewrite (r.renewal source.lexemes) := by
  intro source report
  have htwo := revise_revise hclosed hopener
  rcases r.lint_spec path content with ⟨-, hall⟩ | ⟨k, -, hleast, hgaveUp, hafter, hpasses⟩
  · exact absurd htwo (hall 1 (by decide))
  · have hk : k ≤ 1 := hleast.2 htwo
    refine ⟨hgaveUp, hpasses.trans_le (Nat.succ_le_succ hk), ?_⟩
    rw [hafter, ← r.revise_eq path content]
    rcases Nat.le_one_iff_eq_zero_or_eq_one.mp hk with rfl | rfl
    · exact hleast.1.symm
    · rfl

/-- One literal found by two calls, one found by none, and a heredoc between them. -/
theorem lint_of_isClosed_nested :
    let r : Renaming := ⟨ascii "old", ascii "it\\'s"⟩
    let content := ascii "<?php __(1, _e('old')); <<<A\n'old'\nA; 'old'; _x(\"old\");"
    let report := (r.lint true (ascii "a.php") content).1
    r.findings (Source.mk (ascii "a.php") content).lexemes ≠ [] ∧ report.gaveUp = false ∧
      report.passes ≤ 2 ∧ report.after =
        ascii "<?php __(1, _e('it\\'s')); <<<A\n'old'\nA; 'old'; _x('it\\'s');" := by
  intro r content report
  obtain ⟨hgaveUp, hpasses, hafter⟩ :=
    lint_of_isClosed r (ascii "a.php") content (by decide +kernel) (by decide +kernel)
  exact ⟨by decide +kernel, hgaveUp, hpasses, hafter.trans (by decide +kernel)⟩

/-- Fixing is given up exactly if each of fifty passes changes the content. Otherwise it ends at the
first content that a pass leaves as it is, where the old domain is no longer found. -/
theorem lint_of_settled (r : Renaming) (path content : Bytes) :
    let report := (r.lint true path content).1
    let source := Source.mk path report.after
    (report.gaveUp = true ↔ ∀ i < 50, r.revise^[i + 1] content ≠ r.revise^[i] content) ∧
    (report.gaveUp = false →
      (∃ k, IsLeast {k | r.revise^[k + 1] content = r.revise^[k] content} k ∧
        report.after = r.revise^[k] content ∧ report.passes = k + 1) ∧
      (∀ path', let again := (r.lint true path' report.after).1
        again.gaveUp = false ∧ again.passes = 1 ∧ again.changed = false) ∧
      (r.old ≠ r.new → r.findings source.lexemes = []) ∧
      (r.old = r.new → ∀ f ∈ r.findings source.lexemes,
        source.lexemes[f.position]? = some ⟨.string, r.replacement⟩)) := by
  intro report source
  rcases r.lint_spec path content with ⟨hgaveUp, hall⟩ | ⟨k, hk, hleast, hgaveUp, hafter, hpasses⟩
  · refine ⟨⟨fun _ => hall, fun _ => hgaveUp⟩, fun hsettled => ?_⟩
    rw [hgaveUp] at hsettled
    cases hsettled
  · have hstable : r.revise report.after = report.after := by
      rw [hafter, ← Function.iterate_succ_apply' r.revise]
      exact hleast.1
    have hfound := (r.revise_eq_self_iff path report.after).mp hstable
    refine ⟨⟨fun h => ?_, fun hall => absurd hleast.1 (hall k hk)⟩, fun _ =>
      ⟨⟨k, hleast, hafter, hpasses⟩, fun path' => lint_of_stable hstable, fun hne => ?_,
        fun _ => hfound⟩⟩
    · rw [hgaveUp] at h
      cases h
    · -- The new literal is no literal of the old domain.
      refine List.eq_nil_iff_forall_not_mem.mpr fun f hf => ?_
      obtain ⟨text, hliteral, hold⟩ := literal_of_mem_findings hf
      have htext := Option.some.inj (hliteral.symm.trans (hfound f hf))
      cases htext
      exact hne (hold.symm.trans (unquote_of_quoted (Or.inl rfl) r.new))

/-- A new domain that is not closed turns the end of the content into an unfinished string. -/
theorem lint_of_settled_open :
    let r : Renaming := ⟨ascii "old", ascii "\\"⟩
    let report := (r.lint true (ascii "a.php") (ascii "<?php __('old');")).1
    report.after = ascii "<?php __('\\');" ∧
      r.findings (Source.mk (ascii "a.php") report.after).lexemes = [] := by
  intro r report
  obtain ⟨-, hsettled⟩ := lint_of_settled r (ascii "a.php") (ascii "<?php __('old');")
  obtain ⟨-, -, hnone, -⟩ := hsettled (by decide +kernel)
  exact ⟨by decide +kernel, hnone (by decide)⟩

end Renaming

end TextDomain
