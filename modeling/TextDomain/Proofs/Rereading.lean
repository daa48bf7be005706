import Mathlib.Data.List.DropRight
import TextDomain.Proofs.Findings
import TextDomain.Proofs.Lookahead
import TextDomain.Proofs.Splicing

/-!
# Rewritten literals are read back

A closed text in single quotes (`Quoted.isClosed`, `Quoted.inQuotes`) is read as one string literal,
whatever follows it. Put in the place of a string literal it leaves all other tokens as they were.
What stands before it is read alike, since a quote ends all lookahead, and the reader is in the same
state after it.

A literal after `<<<` is left out (`Heredoc.endsInOpener`): with another quote or another text it
might become the label of a heredoc. Another literal may still come up where a header has been
tried, if what looks like one turns out to be no heredoc. `Apart` follows two texts to the first
literal in which they differ, and `Apart.read_eq` says that they are read alike up to there.

`Source.readings_rewrite` is the result for a whole source with any number of new texts.
`Draft.tokens_after_replacements` is its form for the replacements made in a draft.
-/

namespace TextDomain

/-! ## Literals in single quotes -/

namespace Quoted

/-- A text can stand in single quotes as it is: with each backslash taken together with the byte
after it, no single quote is left alone and no backslash ends the text. -/
def isClosed : Bytes → Bool
  | [] => true
  | c :: s =>
    if c = Byte.backslash then
      match s with
      | [] => false
      | _ :: s => isClosed s
    else c != Byte.singleQuote && isClosed s

/-- A text in single quotes. -/
def inQuotes (text : Bytes) : Bytes :=
  Byte.singleQuote :: text ++ [Byte.singleQuote]

theorem body?_singleQuote (rest : Bytes) :
    body? Byte.singleQuote (Byte.singleQuote :: rest) = some [Byte.singleQuote] := by
  unfold body?
  rw [if_neg (by decide), if_pos rfl]

theorem body?_of_isClosed (rest : Bytes) : ∀ {text : Bytes}, isClosed text = true →
    body? Byte.singleQuote (text ++ Byte.singleQuote :: rest) = some (text ++ [Byte.singleQuote])
  | [], _ => body?_singleQuote rest
  | [c], h => by
    rw [isClosed] at h
    split at h
    · simp at h
    · rename_i hc
      have hquote : c ≠ Byte.singleQuote := by simpa [isClosed] using h
      rw [List.cons_append, List.nil_append, body?, if_neg hc, if_neg hquote,
        body?_singleQuote]
      rfl
  | c :: d :: text, h => by
    rw [isClosed] at h
    split at h
    · rename_i hc
      rw [List.cons_append, List.cons_append, body?, if_pos hc, body?_of_isClosed rest h]
      rfl
    · rename_i hc
      rw [Bool.and_eq_true, bne_iff_ne] at h
      have hinner := body?_of_isClosed rest h.2
      rw [List.cons_append] at hinner
      rw [List.cons_append, List.cons_append, body?, if_neg hc, if_neg h.1, hinner]
      rfl

/-- A closed text in quotes is read as a string literal, whatever follows it. -/
theorem codeLexeme_inQuotes {text : Bytes} (h : isClosed text = true) (rest : Bytes) :
    codeLexeme (inQuotes text ++ rest) = ⟨.string, inQuotes text⟩ := by
  have hbody := body?_of_isClosed rest h
  have hquoted : quoted? (inQuotes text ++ rest) = some ⟨.string, inQuotes text⟩ := by
    have happend : inQuotes text ++ rest =
        Byte.singleQuote :: (text ++ Byte.singleQuote :: rest) := by
      simp [inQuotes]
    rw [happend, quoted?, if_pos (by decide), hbody]
    rfl
  rw [inQuotes, List.cons_append, List.cons_append] at hquoted ⊢
  simp only [codeLexeme, hquoted]
  rfl

/-- What ends a string is the quote that it began with. -/
theorem body?_eq_append (quote : UInt8) : ∀ {s body : Bytes}, body? quote s = some body →
    ∃ inner, body = inner ++ [quote]
  | [], _, h => by simp [body?] at h
  | [c], body, h => by
    rw [body?] at h
    split at h
    · simp at h
    · split at h
      · rename_i hc
        obtain rfl := Option.some.inj h
        exact ⟨[], by rw [hc, List.nil_append]⟩
      · simp [body?] at h
  | c :: d :: s, body, h => by
    rw [body?] at h
    split at h
    · obtain ⟨body, hbody, rfl⟩ := Option.map_eq_some_iff.mp h
      obtain ⟨inner, rfl⟩ := body?_eq_append quote hbody
      exact ⟨c :: d :: inner, rfl⟩
    · split at h
      · rename_i hc
        obtain rfl := Option.some.inj h
        exact ⟨[], by rw [hc, List.nil_append]⟩
      · obtain ⟨body, hbody, rfl⟩ := Option.map_eq_some_iff.mp h
        obtain ⟨inner, rfl⟩ := body?_eq_append quote hbody
        exact ⟨c :: inner, rfl⟩

end Quoted

/-- A string literal is a text between two quotes of one sort. -/
theorem shape_of_codeLexeme {s : Bytes} (h : (codeLexeme s).kind = .string) :
    ∃ quote inner, (quote = Byte.singleQuote ∨ quote = Byte.doubleQuote) ∧
      (codeLexeme s).text = quote :: (inner ++ [quote]) := by
  cases s with
  | nil => simp [codeLexeme] at h
  | cons c s =>
    revert h
    refine codeLexeme_cases (motive := fun l => l.kind = .string → ∃ quote inner,
      (quote = Byte.singleQuote ∨ quote = Byte.doubleQuote) ∧ l.text = quote :: (inner ++ [quote]))
      (by simp) (by simp) (by simp) (by simp) (fun l hl h => ?_) (fun l hl h => ?_)
      fun _ _ _ h => ?_
    · obtain ⟨quote, rest, -, hquote, rfl | ⟨body, hbody, rfl⟩⟩ := Quoted.cases_of_quoted? hl
      · simp at h
      · obtain ⟨inner, rfl⟩ := Quoted.body?_eq_append quote hbody
        refine ⟨quote, inner, ?_, rfl⟩
        simp only [Quoted.isQuote, Bool.or_eq_true, beq_iff_eq] at hquote
        rcases hquote with hquote | rfl
        · exact hquote
        · simp [Quoted.kind] at h
    · exact absurd h (ne_of_mem_of_not_mem (Heredoc.kind_mem hl) (by decide))
    · exact absurd h (ne_of_mem_of_not_mem (Symbol.kind_mem c s) (by decide))

/-- String literals are read in code only. -/
theorem shape_of_read {mode : Mode} {s : Bytes} (h : (mode.read s).lexeme.kind = .string) :
    mode = .code ∧ ∃ quote inner, (quote = Byte.singleQuote ∨ quote = Byte.doubleQuote) ∧
      (mode.read s).lexeme.text = quote :: (inner ++ [quote]) := by
  cases mode with
  | markup =>
    cases s with
    | nil => cases h
    | cons c s => exact absurd h (ne_of_mem_of_not_mem (kind_markupLexeme_mem c s) (by decide))
  | code => exact ⟨rfl, shape_of_codeLexeme h⟩

/-! ## Texts that differ from a literal on -/

/-- The text ends with `<<<`, blanks aside, so that a quote after it might belong to the header of a
heredoc. -/
def Heredoc.endsInOpener (before : Bytes) : Bool :=
  (ascii "<<<").isSuffixOf (before.rdropWhile Byte.isBlank)

theorem Heredoc.endsInOpener_append (before : Bytes) {blanks : Bytes}
    (h : ∀ b ∈ blanks, Byte.isBlank b = true) :
    endsInOpener (before ++ (ascii "<<<" ++ blanks)) = true := by
  have hdrop : (before ++ (ascii "<<<" ++ blanks)).rdropWhile Byte.isBlank =
      before ++ ascii "<<<" := by
    rw [List.rdropWhile, List.reverse_append, List.reverse_append, List.append_assoc,
      List.dropWhile_append_of_pos (by simpa using h), ← List.reverse_append]
    nth_rewrite 2 [← List.reverse_reverse (before ++ ascii "<<<")]
    rw [List.reverse_append]
    rfl
  rw [endsInOpener, hdrop, List.isSuffixOf_iff_suffix]
  exact List.suffix_append _ _

/-- Two texts are read alike up to a literal that stands in both: `before` is what was read in
either before them. Of the literals only the first quotes are known. -/
inductive Apart : (before : Bytes) → Mode → Bytes → Bytes → Prop where
  | here {before s q q' : Bytes} (hs : Trivia.join (Trivia.run s) ++ q = s)
      (hq : QuoteLed q) (hq' : QuoteLed q')
      (hopener : Heredoc.endsInOpener (before ++ Trivia.join (Trivia.run s)) = false) :
      Apart before .code s (Trivia.join (Trivia.run s) ++ q')
  | later {before s s' : Bytes} {mode : Mode} (hkind : (mode.read s).lexeme.kind ≠ .eof)
      (h : Apart (before ++ (mode.read s).text) ((mode.read s).lexeme.kind.modeAfter mode)
        (s.drop (mode.read s).size) s') :
      Apart before mode s ((mode.read s).text ++ s')

namespace Apart

variable {before s s' : Bytes} {mode : Mode}

theorem fork (h : Apart before mode s s') : ∃ p q q', s = p ++ q ∧ s' = p ++ q' ∧ QuoteLed q ∧
    QuoteLed q' ∧ Heredoc.endsInOpener (before ++ p) = false := by
  induction h with
  | here hs hq hq' hopener => exact ⟨_, _, _, hs.symm, rfl, hq, hq', hopener⟩
  | @later before s s' mode hkind h ih =>
    obtain ⟨p, q, q', hp, rfl, hq, hq', hopener⟩ := ih
    refine ⟨(mode.read s).text ++ p, q, q', ?_, by rw [List.append_assoc], hq, hq', ?_⟩
    · rw [List.append_assoc, ← hp, text_read_append]
    · rwa [← List.append_assoc]

/-- Nothing stands apart at the end. -/
theorem ne_nil (h : Apart before mode s s') : s ≠ [] := by
  rintro rfl
  obtain ⟨p, q, q', hp, -, ⟨c, u, rfl, -⟩, -⟩ := h.fork
  simp at hp

end Apart

/-! ## Quotes after `<<<`

A quote after `<<<` and blanks that starts no heredoc starts a string. So a literal that stands
after that string stands after its second quote, and what follows cannot make a header of it. -/

theorem Trivia.join_run_blanks {q : Bytes} (hq : QuoteLed q) : ∀ {blanks : Bytes},
    (∀ b ∈ blanks, Byte.isBlank b = true) → join (run (blanks ++ q)) = blanks
  | [], _ => by
    obtain ⟨c, u, rfl, rfl | rfl⟩ := hq <;> rw [List.nil_append, run_of_none rfl, join_nil]
  | b :: blanks, h => by
    have hspace : Byte.isSpace b = true := by
      have hb := h b List.mem_cons_self
      simp only [Byte.isBlank, Bool.or_eq_true, beq_iff_eq] at hb
      rcases hb with rfl | rfl <;> rfl
    have hfirst : first? (b :: (blanks ++ q)) = some (space b) := by
      rw [first?, if_pos hspace]
    rw [List.cons_append, run_of_some hfirst, join_cons]
    exact congrArg (b :: ·) (join_run_blanks hq fun c hc => h c (List.mem_cons_of_mem b hc))

/-- A single `<` before a blank or a quote is an operator. -/
theorem Mode.read_less {blanks q : Bytes} (hq : QuoteLed q)
    (h : ∀ b ∈ blanks, Byte.isBlank b = true) :
    Mode.code.read (Byte.less :: (blanks ++ q)) = ⟨[], ⟨.operator, [Byte.less]⟩⟩ := by
  have hrun : Trivia.run (Byte.less :: (blanks ++ q)) = [] := Trivia.run_of_none rfl
  have hlexeme : codeLexeme (Byte.less :: (blanks ++ q)) = ⟨.operator, [Byte.less]⟩ := by
    cases blanks with
    | nil => obtain ⟨c, u, rfl, rfl | rfl⟩ := hq <;> rfl
    | cons b blanks =>
      have hb := h b List.mem_cons_self
      simp only [Byte.isBlank, Bool.or_eq_true, beq_iff_eq] at hb
      rcases hb with rfl | rfl <;> rfl
  simp only [Mode.read, hrun, Trivia.join_nil, List.length_nil, List.drop_zero, hlexeme]

/-- Three `<` start a heredoc or an operator of two bytes. -/
theorem codeLexeme_opener (s : Bytes) : codeLexeme (ascii "<<<" ++ s) =
    (Heredoc.heredoc? (ascii "<<<" ++ s)).getD ⟨.operator, [Byte.less, Byte.less]⟩ := by
  have hsplit : ascii "<<<" ++ s = Byte.less :: Byte.less :: Byte.less :: s := rfl
  rw [hsplit]
  cases h : Heredoc.heredoc? (Byte.less :: Byte.less :: Byte.less :: s) <;>
    simp only [codeLexeme, h] <;> rfl

/-- At a quote nothing but a string is read. -/
theorem Quoted.codeLexeme_of_isQuote {quote : UInt8} (h : isQuote quote = true) (s : Bytes) :
    codeLexeme (quote :: s) =
      match body? quote s with
      | some body => ⟨kind quote body, quote :: body⟩
      | none => ⟨.error, quote :: s⟩ := by
  have hquoted : codeLexeme (quote :: s) = (quoted? (quote :: s)).getD (Symbol.symbol quote s) := by
    simp only [isQuote, Bool.or_eq_true, beq_iff_eq, or_assoc] at h
    cases hread : quoted? (quote :: s) <;> rcases h with rfl | rfl | rfl <;>
      simp only [codeLexeme, hread] <;> rfl
  rw [hquoted, quoted?, if_pos h]
  cases body? quote s <;> rfl

theorem Quoted.codeLexeme_quote {d : UInt8} (hd : d = Byte.singleQuote ∨ d = Byte.doubleQuote)
    (y : Bytes) : (codeLexeme (d :: y)).text = d :: (body? d y).getD y := by
  have hquote : isQuote d = true := by
    rcases hd with rfl | rfl <;> rfl
  rw [codeLexeme_of_isQuote hquote]
  cases body? d y <;> rfl

theorem Mode.text_read_blanks {blanks q : Bytes} (hq : QuoteLed q)
    (h : ∀ b ∈ blanks, Byte.isBlank b = true) :
    (Mode.code.read (blanks ++ q)).text = blanks ++ (codeLexeme q).text := by
  have hjoin := Trivia.join_run_blanks hq h
  simp only [Mode.read, Reading.text, hjoin, List.drop_left]

theorem drop_size_of_append {mode : Mode} {s rest : Bytes} (h : (mode.read s).text ++ rest = s) :
    s.drop (mode.read s).size = rest :=
  List.append_cancel_left ((text_read_append mode s).trans h.symm)

/-- Where a string follows a `<` that may be the third of three, the texts differ only after the
string. -/
theorem Apart.fork_after_less {before y s' blanks : Bytes} {d : UInt8}
    (hd : d = Byte.singleQuote ∨ d = Byte.doubleQuote)
    (hblanks : ∀ b ∈ blanks, Byte.isBlank b = true)
    (hopener : Heredoc.endsInOpener (before ++ Byte.less :: blanks) = true)
    (h : Apart before .code (Byte.less :: (blanks ++ d :: y)) s') :
    ∃ inner p q q', y = inner ++ d :: p ++ q ∧
      s' = Byte.less :: (blanks ++ d :: (inner ++ d :: p)) ++ q' ∧ QuoteLed q ∧ QuoteLed q' := by
  have hq : QuoteLed (d :: y) := ⟨d, y, rfl, hd⟩
  have hless := Mode.read_less hq hblanks
  cases h with
  | here hs hq₁ _ _ =>
    have hrun : Trivia.run (Byte.less :: (blanks ++ d :: y)) = [] := Trivia.run_of_none rfl
    rw [hrun, Trivia.join_nil, List.nil_append] at hs
    obtain ⟨c, u, rfl, hc⟩ := hq₁
    obtain rfl := (List.cons.inj hs).1
    exact absurd hc (by decide)
  | @later _ _ s₁ _ _ h₁ =>
    rw [hless] at h₁ ⊢
    have hstring : Apart (before ++ [Byte.less]) .code (blanks ++ d :: y) s₁ := h₁
    cases hstring with
    | here _ _ _ hopener' =>
      rw [Trivia.join_run_blanks hq hblanks, List.append_assoc, List.singleton_append,
        hopener] at hopener'
      cases hopener'
    | @later _ _ s₂ _ _ h₂ =>
      have htext := Mode.text_read_blanks hq hblanks
      rw [Quoted.codeLexeme_quote hd] at htext
      cases hbody : Quoted.body? d y with
      | none =>
        -- A string without an end leaves nothing to differ in.
        rw [hbody, Option.getD_none] at htext
        exact absurd (drop_size_of_append (by rw [htext, List.append_nil])) h₂.ne_nil
      | some body =>
        obtain ⟨rest, rfl⟩ := Quoted.body?_isPrefix d hbody
        obtain ⟨inner, rfl⟩ := Quoted.body?_eq_append d hbody
        rw [hbody, Option.getD_some] at htext
        have happend : (Mode.code.read (blanks ++ d :: (inner ++ [d] ++ rest))).text ++ rest =
            blanks ++ d :: (inner ++ [d] ++ rest) := by
          rw [htext]
          simp
        rw [drop_size_of_append happend] at h₂
        obtain ⟨p, q, q', rfl, rfl, hq₂, hq₂', -⟩ := h₂.fork
        refine ⟨inner, p, q, q', by simp, ?_, hq₂, hq₂'⟩
        rw [htext]
        simp [Reading.text]

namespace Heredoc

variable {blanks name q : Bytes} {d : UInt8}

theorem takeWhile_blanks (hd : d = Byte.singleQuote ∨ d = Byte.doubleQuote)
    (hblanks : ∀ b ∈ blanks, Byte.isBlank b = true) (y : Bytes) :
    (blanks ++ d :: y).takeWhile Byte.isBlank = blanks := by
  have hblank : Byte.isBlank d = false := Quoteless.eq_false (by decide) hd
  rw [List.takeWhile_append_of_pos hblanks, List.takeWhile_cons_of_neg (by simp [hblank]),
    List.append_nil]

/-- The header of a heredoc with a quoted label holds both quotes. -/
theorem length_lt_of_heredoc? (hd : d = Byte.singleQuote ∨ d = Byte.doubleQuote)
    (hblanks : ∀ b ∈ blanks, Byte.isBlank b = true) (hname : ∀ b ∈ name, Byte.isNameByte b = true)
    (hq : QuoteLed q) {l : Lexeme}
    (h : heredoc? (ascii "<<<" ++ (blanks ++ d :: (name ++ q))) = some l) :
    (ascii "<<<" ++ (blanks ++ d :: name)).length < l.text.length := by
  obtain ⟨header, hheader, hl⟩ := Option.map_eq_some_iff.mp h
  have hlong : (ascii "<<<" ++ (blanks ++ d :: name)).length < header.text.length := by
    simp only [header?, Option.bind_eq_bind, Option.bind_eq_some_iff] at hheader
    obtain ⟨rest, hrest, ⟨written, label⟩, hlabel, hheader⟩ := hheader
    obtain rfl := List.append_cancel_left (Bytes.eq_of_after? hrest)
    have hwhile : (name ++ q).takeWhile Byte.isNameByte = name := by
      rw [hq.takeWhile_append (by decide), List.takeWhile_eq_self_iff]
      exact hname
    rw [takeWhile_blanks hd hblanks] at hlabel hheader
    simp only [List.drop_left, label?, labelQuote, if_pos hd, List.length_singleton,
      List.drop_succ_cons, List.drop_zero, hwhile] at hlabel
    split at hlabel
    · obtain ⟨rfl, -⟩ := Prod.mk.inj (Option.some.inj hlabel)
      split at hheader
      · obtain rfl := Option.some.inj hheader
        simp only [List.length_append, List.length_cons, List.length_nil]
        omega
      · cases hheader
    · cases hlabel
  split at hl <;> subst hl
  · simp only [List.length_append] at hlong ⊢
    omega
  · exact Nat.lt_of_lt_of_le hlong (header?_isPrefix hheader).length_le

/-- After both quotes of a string no quote is waited for. -/
theorem not_awaitsQuote (hd : d = Byte.singleQuote ∨ d = Byte.doubleQuote)
    (hblanks : ∀ b ∈ blanks, Byte.isBlank b = true) (inner p : Bytes) :
    ¬ AwaitsQuote (ascii "<<<" ++ (blanks ++ d :: (inner ++ d :: p))) := by
  rintro ⟨blanks', tail, heq, hblanks', rfl | ⟨d', name, rfl, hd', hname⟩⟩
  · rw [List.append_nil] at heq
    have hmem : d ∈ blanks' := by
      rw [← List.append_cancel_left heq]
      simp
    have hblank : Byte.isBlank d = false := Quoteless.eq_false (by decide) hd
    exact absurd (hblanks' d hmem) (by simp [hblank])
  · have heq := List.append_cancel_left heq
    obtain rfl : blanks = blanks' := by
      rw [← takeWhile_blanks hd hblanks (inner ++ d :: p), heq, takeWhile_blanks hd' hblanks']
    obtain ⟨rfl, rfl⟩ := List.cons.inj (List.append_cancel_left heq)
    have hbyte : Byte.isNameByte d = false := Quoteless.eq_false (by decide) hd
    exact absurd (hname d (by simp)) (by simp [hbyte])

end Heredoc

/-! ## Reading up to a literal -/

namespace Apart

variable {before s s' : Bytes} {mode : Mode}

/-- A token before a quote that a header may be waiting for is the operator `<<`, unless the quote
is part of the token. -/
theorem lexeme_of_awaitsQuote {blanks name p q : Bytes} {d : UInt8}
    (hd : d = Byte.singleQuote ∨ d = Byte.doubleQuote)
    (hblanks : ∀ b ∈ blanks, Byte.isBlank b = true) (hname : ∀ b ∈ name, Byte.isNameByte b = true)
    (hq : QuoteLed q) (hs : (Mode.code.read s).text ++ p ++ q = s)
    (heq : (Mode.code.read s).lexeme.text ++ p = ascii "<<<" ++ (blanks ++ d :: name)) :
    (Mode.code.read s).lexeme = ⟨.operator, [Byte.less, Byte.less]⟩ := by
  have hlexeme : (Mode.code.read s).lexeme =
      codeLexeme (ascii "<<<" ++ (blanks ++ d :: (name ++ q))) := by
    have hrest : (Mode.code.read s).lexeme.text ++ p ++ q =
        s.drop (Trivia.join (Trivia.run s)).length := by
      refine (List.append_right_inj (Trivia.join (Trivia.run s))).mp ?_
      rw [List.prefix_iff_eq_append.mp (Trivia.join_run_isPrefix s), ← List.append_assoc,
        ← List.append_assoc]
      exact hs
    rw [heq] at hrest
    simp only [List.append_assoc, List.cons_append] at hrest
    rw [hrest]
    rfl
  rw [codeLexeme_opener] at hlexeme
  cases hheredoc : Heredoc.heredoc? (ascii "<<<" ++ (blanks ++ d :: (name ++ q))) with
  | none => rw [hlexeme, hheredoc, Option.getD_none]
  | some l =>
    have hlong := Heredoc.length_lt_of_heredoc? hd hblanks hname hq hheredoc
    rw [hheredoc, Option.getD_some] at hlexeme
    rw [← heq, hlexeme, List.length_append] at hlong
    omega

/-- After a token, the texts differ from a quote on that no header of a heredoc waits for. -/
theorem exists_fork (h : Apart (before ++ (mode.read s).text)
      ((mode.read s).lexeme.kind.modeAfter mode) (s.drop (mode.read s).size) s') :
    ∃ p q q', s = (mode.read s).text ++ p ++ q ∧
      (mode.read s).text ++ s' = (mode.read s).text ++ p ++ q' ∧
      (mode = .code → ¬ Heredoc.AwaitsQuote ((mode.read s).lexeme.text ++ p)) ∧
      QuoteLed q ∧ QuoteLed q' := by
  obtain ⟨p, q, q', hp, rfl, hq, hq', hopener⟩ := h.fork
  have hs := text_read_append mode s
  rw [hp, ← List.append_assoc] at hs
  by_cases hawait : mode = .code ∧ Heredoc.AwaitsQuote ((mode.read s).lexeme.text ++ p)
  · obtain ⟨rfl, blanks, tail, heq, hblanks, rfl | ⟨d, name, rfl, hd, hname⟩⟩ := hawait
    · -- The literal itself would stand after `<<<`.
      rw [List.append_nil] at heq
      rw [Reading.text, List.append_assoc, List.append_assoc, heq, ← List.append_assoc,
        Heredoc.endsInOpener_append _ hblanks] at hopener
      cases hopener
    · have hlexeme := lexeme_of_awaitsQuote hd hblanks hname hq hs heq
      have htext : (Mode.code.read s).text =
          Trivia.join (Mode.code.read s).gap ++ [Byte.less, Byte.less] := by
        rw [Reading.text, hlexeme]
      rw [hlexeme] at heq
      obtain rfl : p = Byte.less :: (blanks ++ d :: name) :=
        (List.append_right_inj [Byte.less, Byte.less]).mp heq
      rw [hlexeme, hp] at h
      have hopener' : Heredoc.endsInOpener ((before ++ (Mode.code.read s).text) ++
          Byte.less :: blanks) = true := by
        rw [htext, ← List.append_assoc, List.append_assoc]
        exact Heredoc.endsInOpener_append _ hblanks
      simp only [List.cons_append, List.append_assoc, Kind.modeAfter] at h
      obtain ⟨inner, p, q₁, q₁', hy, hs', hq₁, hq₁'⟩ := h.fork_after_less hd hblanks hopener'
      refine ⟨Byte.less :: (blanks ++ d :: (inner ++ d :: p)), q₁, q₁', ?_, ?_, fun _ => ?_, hq₁,
        hq₁'⟩
      · nth_rewrite 1 [← hs]
        simp only [List.append_assoc, List.cons_append, hy]
      · rw [List.append_assoc _ _ q₁', ← hs']
        simp only [List.append_assoc, List.cons_append]
      · rw [hlexeme]
        exact Heredoc.not_awaitsQuote hd hblanks inner p
  · exact ⟨p, q, q', hs.symm, by rw [List.append_assoc], fun hcode => by simp_all, hq, hq'⟩

/-- Up to the literal the texts are read alike. -/
theorem read_eq (hkind : (mode.read s).lexeme.kind ≠ .eof)
    (h : Apart (before ++ (mode.read s).text) ((mode.read s).lexeme.kind.modeAfter mode)
      (s.drop (mode.read s).size) s') : mode.read ((mode.read s).text ++ s') = mode.read s := by
  obtain ⟨p, q, q', hs, hs', hawait, hq, hq'⟩ := h.exists_fork
  rw [hs']
  generalize hr : mode.read s = r at hkind hs hawait ⊢
  have hread : mode.read (r.text ++ p ++ q) = r := by rw [← hs, hr]
  refine (Mode.read_append hq hq' ?_ (fun hcode => ?_) ?_).trans hread
  · rwa [hread]
  · have hdrop : (r.text ++ p).drop r.gapSize = r.lexeme.text ++ p := by
      rw [Reading.text, List.append_assoc]
      exact List.drop_left
    rw [hread, hdrop]
    exact hawait hcode
  · rw [hread, List.length_append, Reading.length_text]
    exact Nat.le_add_right _ _

end Apart

/-! ## Reading the rewritten text -/

/-- A reading whose token has a new text, if there is one. -/
def Reading.renew (r : Reading) (new : Option Bytes) : Reading :=
  ⟨r.gap, r.lexeme.renew new⟩

/-- A new text that a token of `content` may be given: a closed text in single quotes, for a string
literal that does not stand after `<<<`. -/
def Renewable (content : Bytes) (step : Step) (new : Option Bytes) : Prop :=
  ∀ text, new = some text → step.lexeme.kind = .string ∧
    (∃ inner, Quoted.isClosed inner = true ∧ text = Quoted.inQuotes inner) ∧
    Heredoc.endsInOpener (content.take step.start) = false

theorem QuoteLed.of_inQuotes (inner rest : Bytes) : QuoteLed (Quoted.inQuotes inner ++ rest) :=
  ⟨_, _, rfl, Or.inl rfl⟩

theorem QuoteLed.of_read {mode : Mode} {s : Bytes} (h : (mode.read s).lexeme.kind = .string)
    (rest : Bytes) : QuoteLed ((mode.read s).lexeme.text ++ rest) := by
  obtain ⟨-, quote, inner, hquote, htext⟩ := shape_of_read h
  exact ⟨quote, inner ++ [quote] ++ rest, by rw [htext, List.cons_append], hquote⟩

/-- A closed text in quotes is read in the place of a string literal. -/
theorem Mode.read_inQuotes {s inner : Bytes} (hkind : (Mode.code.read s).lexeme.kind = .string)
    (hinner : Quoted.isClosed inner = true) (rest : Bytes) :
    Mode.code.read (Trivia.join (Trivia.run s) ++ (Quoted.inQuotes inner ++ rest)) =
      (Mode.code.read s).renew (some (Quoted.inQuotes inner)) := by
  have hs : Trivia.join (Trivia.run s) ++ ((Mode.code.read s).lexeme.text ++
      s.drop (Mode.code.read s).size) = s := by
    rw [← List.append_assoc]
    exact text_read_append .code s
  have hrun : Trivia.run (Trivia.join (Trivia.run s) ++ (Quoted.inQuotes inner ++ rest)) =
      Trivia.run s := by
    have hsame := Trivia.run_append (QuoteLed.of_read hkind (s.drop (Mode.code.read s).size))
      (QuoteLed.of_inQuotes inner rest) (p := Trivia.join (Trivia.run s)) (by rw [hs])
    rwa [hs] at hsame
  rw [Reading.renew, Lexeme.renew, hkind]
  simp only [Mode.read, hrun, List.drop_left, Quoted.codeLexeme_inQuotes hinner, Option.getD_some]

namespace Cursor

variable {content : Bytes} {c : Cursor}

/-- Only string literals have a new text, so the end has none. -/
theorem new_of_eof {new : Option Bytes} (h : Renewable content c.step new)
    (heof : c.step.lexeme.kind = .eof) : new = none := by
  cases new with
  | none => rfl
  | some text =>
    have hkind := (h text rfl).1
    rw [heof] at hkind
    cases hkind

theorem weave_of_eof (heof : c.step.lexeme.kind = .eof) : weave [(c.step, none)] = c.rest := by
  have hrest := c.gap_append_text_append_next
  rwa [rest_next_of_eof heof, ← List.append_assoc] at hrest

/-- A rewritten text is the text itself, or is apart from it. -/
theorem apart_weave (hc : content.drop c.offset = c.rest) {pairs : List (Step × Option Bytes)}
    (h : pairs.map Prod.fst = c.steps) (hnew : ∀ pair ∈ pairs, Renewable content pair.1 pair.2) :
    weave pairs = c.rest ∨ Apart (content.take c.offset) c.mode c.rest (weave pairs) := by
  induction c using next_induction generalizing pairs with
  | last c heof =>
    rw [steps_of_eof heof] at h
    obtain ⟨⟨step, new⟩, rfl, hstep⟩ := List.map_eq_singleton_iff.mp h
    obtain rfl : step = c.step := hstep
    obtain rfl := new_of_eof (hnew _ List.mem_cons_self) heof
    exact Or.inl (weave_of_eof heof)
  | more c heof ih =>
    rw [steps_of_ne heof] at h
    obtain ⟨⟨step, new⟩, pairs, rfl, hstep, hpairs⟩ := List.map_eq_cons_iff.mp h
    obtain rfl : step = c.step := hstep
    have hrest := c.gap_append_text_append_next
    cases new with
    | some text =>
      obtain ⟨hkind, ⟨inner, -, rfl⟩, hopener⟩ := hnew _ List.mem_cons_self _ rfl
      obtain ⟨hcode, -⟩ := shape_of_read hkind
      right
      rw [take_start hc] at hopener
      obtain ⟨mode, offset, rest⟩ := c
      obtain rfl : mode = .code := hcode
      rw [weave_cons, Option.getD_some, List.append_assoc]
      exact Apart.here hrest (QuoteLed.of_read hkind _) (QuoteLed.of_inQuotes inner _) hopener
    | none =>
      rw [weave_cons, Option.getD_none]
      rcases ih (drop_offset_next hc) hpairs fun pair hpair =>
        hnew pair (List.mem_cons_of_mem _ hpair) with hsame | hapart
      · left
        rw [hsame, List.append_assoc, hrest]
      · right
        rw [take_offset_next hc] at hapart
        exact Apart.later heof hapart

/-- A step of a rewritten text reads what the step of the text did, with its new text. -/
theorem read_weave_cons (hc : content.drop c.offset = c.rest) (heof : c.step.lexeme.kind ≠ .eof)
    {new : Option Bytes} {pairs : List (Step × Option Bytes)} (hstep : Renewable content c.step new)
    (h : pairs.map Prod.fst = c.next.steps)
    (hnew : ∀ pair ∈ pairs, Renewable content pair.1 pair.2) :
    c.mode.read (weave ((c.step, new) :: pairs)) = c.step.reading.renew new := by
  have hrest := c.gap_append_text_append_next
  cases new with
  | some text =>
    obtain ⟨hkind, ⟨inner, hinner, rfl⟩, -⟩ := hstep _ rfl
    obtain ⟨hcode, -⟩ := shape_of_read hkind
    obtain ⟨mode, offset, rest⟩ := c
    obtain rfl : mode = .code := hcode
    rw [weave_cons, Option.getD_some, List.append_assoc]
    exact Mode.read_inQuotes hkind hinner _
  | none =>
    rw [weave_cons, Option.getD_none]
    rcases apart_weave (drop_offset_next hc) h hnew with hsame | hapart
    · rw [hsame, List.append_assoc, hrest]
      rfl
    · rw [take_offset_next hc] at hapart
      exact hapart.read_eq heof

theorem readings_weave (hc : content.drop c.offset = c.rest) {pairs : List (Step × Option Bytes)}
    (h : pairs.map Prod.fst = c.steps) (hnew : ∀ pair ∈ pairs, Renewable content pair.1 pair.2)
    (offset : Nat) :
    (Cursor.mk c.mode offset (weave pairs)).steps.map Step.reading =
      pairs.map fun pair => pair.1.reading.renew pair.2 := by
  induction c using next_induction generalizing pairs offset with
  | last c heof =>
    rw [steps_of_eof heof] at h
    obtain ⟨⟨step, new⟩, rfl, hstep⟩ := List.map_eq_singleton_iff.mp h
    obtain rfl : step = c.step := hstep
    obtain rfl := new_of_eof (hnew _ List.mem_cons_self) heof
    have hlast := steps_of_eof (c := ⟨c.mode, offset, c.rest⟩) heof
    rw [weave_of_eof heof, hlast]
    rfl
  | more c heof ih =>
    rw [steps_of_ne heof] at h
    obtain ⟨⟨step, new⟩, pairs, rfl, hstep, hpairs⟩ := List.map_eq_cons_iff.mp h
    obtain rfl : step = c.step := hstep
    have hpairs' := fun pair hpair => hnew pair (List.mem_cons_of_mem _ hpair)
    have hread := read_weave_cons hc heof (hnew _ List.mem_cons_self) hpairs hpairs'
    generalize hcursor : Cursor.mk c.mode offset (weave ((c.step, new) :: pairs)) = c'
    have hreading : c'.step.reading = c.step.reading.renew new := by
      rw [← hread, ← hcursor]
      rfl
    have heof' : c'.step.lexeme.kind ≠ .eof := by
      rw [Step.lexeme, hreading]
      exact heof
    have hmode : c'.next.mode = c.next.mode := by
      change c'.step.reading.lexeme.kind.modeAfter c'.mode = _
      rw [hreading, ← hcursor]
      rfl
    have htext : c'.step.reading.text ++ weave pairs = c'.rest := by
      rw [hreading, ← hcursor]
      rfl
    have hrest : c'.next.rest = weave pairs := drop_size_of_append htext
    have htail := ih (drop_offset_next hc) hpairs hpairs' c'.next.offset
    rw [← hmode, ← hrest] at htail
    rw [steps_of_ne heof', List.map_cons, hreading, htail]
    rfl

end Cursor

/-- What a renewed reading leaves unfinished is what the reading did. -/
theorem Reading.fault?_renew {content : Bytes} {step : Step} {new : Option Bytes}
    (h : Renewable content step new) :
    (step.reading.renew new).fault?.map Prod.fst = step.reading.fault?.map Prod.fst := by
  cases new with
  | none => rfl
  | some text =>
    have hkind : step.reading.lexeme.kind = .string := (h text rfl).1
    unfold fault? renew
    cases Trivia.unclosed? step.reading.gap with
    | some comment => rfl
    | none => simp [Lexeme.fault?, Lexeme.renew, hkind]

namespace Source

/-- Every new text is one that the token at its position may be given. -/
def Admits (s : Source) (new : Nat → Option Bytes) : Prop :=
  ∀ i step, s.steps[i]? = some step → Renewable s.content step (new i)

variable {s : Source} {new : Nat → Option Bytes}

theorem Admits.of_mem_renewals (h : s.Admits new) :
    ∀ pair ∈ s.renewals new, Renewable s.content pair.1 pair.2 := by
  intro pair hpair
  obtain ⟨i, hi⟩ := List.mem_iff_getElem?.mp hpair
  rw [renewals, List.getElem?_mapIdx, Option.map_eq_some_iff] at hi
  obtain ⟨step, hstep, rfl⟩ := hi
  exact h i step hstep

/-- A source with new texts for string literals is read as before, but for these texts. -/
theorem readings_rewrite (h : s.Admits new) (name : Bytes) :
    (Source.mk name (s.rewrite new)).steps.map Step.reading =
      (s.renewals new).map fun pair => pair.1.reading.renew pair.2 :=
  Cursor.readings_weave (c := Cursor.begin s.content) rfl (s.map_fst_renewals new)
    h.of_mem_renewals 0

theorem lexemes_rewrite (h : s.Admits new) (name : Bytes) :
    (Source.mk name (s.rewrite new)).lexemes = renewAll s.lexemes new := by
  have hlexemes (s : Source) : s.lexemes = (s.steps.map Step.reading).map Reading.lexeme := by
    rw [lexemes_eq, List.map_map]
    rfl
  rw [hlexemes, hlexemes, readings_rewrite h, renewAll, renewals]
  refine List.ext_getElem? fun i => ?_
  simp only [List.getElem?_map, List.getElem?_mapIdx, Option.map_map]
  rfl

theorem faults_rewrite (h : s.Admits new) (name : Bytes) :
    (Source.mk name (s.rewrite new)).errors.map LexError.fault = s.errors.map LexError.fault := by
  have hfaults (steps : List Step) : (steps.filterMap Step.error?).map LexError.fault =
      (steps.map Step.reading).filterMap fun r => r.fault?.map Prod.fst := by
    rw [List.map_filterMap, List.filterMap_map]
    refine List.filterMap_congr fun step _ => ?_
    rw [Step.error?, Option.map_map]
    rfl
  rw [errors, errors, hfaults, hfaults, readings_rewrite h, ← s.map_fst_renewals new,
    List.map_map, List.filterMap_map, List.filterMap_map]
  exact List.filterMap_congr fun pair hpair => Reading.fault?_renew (h.of_mem_renewals pair hpair)

end Source

/-- Replacing string literals in a draft by closed texts in single quotes, in any order, keeps the
kinds of all tokens, the texts of all others and the errors. -/
theorem Draft.tokens_after_replacements (source : Source) (accepting : Bool) (rule : Bytes)
    (ops : List (Nat × Bytes))
    (hops : ∀ op ∈ ops, ∃ token inner, source.tokens[op.1]? = some token ∧ token.kind = .string ∧
      Heredoc.endsInOpener (source.content.take token.offset) = false ∧
      Quoted.isClosed inner = true ∧ op.2 = Quoted.inQuotes inner) :
    let draft := ops.foldl (fun d op => d.replace op.1 op.2) (ofSource source accepting rule)
    let rewritten := Source.mk source.name draft.content
    (∀ i, rewritten.tokens[i]?.map Token.toLexeme =
      source.tokens[i]?.map fun token => ⟨token.kind, (lastText ops i).getD token.text⟩) ∧
    rewritten.errors.map (·.fault.code) = source.errors.map (·.fault.code) := by
  intro draft rewritten
  have hholds := holds_replaceAll ops (holds_ofSource source accepting rule)
  have hcontent : draft.content = source.rewrite (lastText ops) := by
    rw [content_of_holds hholds]
    simp
  have hadmits : source.Admits (lastText ops) := by
    intro i step hstep text htext
    obtain ⟨token, inner, htoken, hkind, hopener, hinner, htext⟩ := hops _ (mem_of_lastText htext)
    rw [Source.tokens, List.getElem?_map, hstep, Option.map_some, Option.some_inj] at htoken
    subst htoken
    exact ⟨hkind, ⟨inner, hinner, htext⟩, hopener⟩
  refine ⟨fun i => ?_, ?_⟩
  · have hlexemes := Source.lexemes_rewrite hadmits source.name
    rw [← hcontent] at hlexemes
    have hi := congrArg (fun l : List Lexeme => l[i]?) hlexemes
    simp only [Source.lexemes, getElem?_renewAll, List.getElem?_map, Option.map_map] at hi
    exact hi
  · have hfaults := Source.faults_rewrite hadmits source.name
    rw [← hcontent] at hfaults
    have hcodes := congrArg (List.map Fault.code) hfaults
    rwa [List.map_map, List.map_map] at hcodes

/-- Two literals of a call, the second replaced first, the first by a text with a quote in it. -/
theorem Draft.tokens_after_two_replacements :
    let source := Source.mk (ascii "a.php") (ascii "<?php __('a', \"b\") /* c")
    let ops := [(5, Quoted.inQuotes (ascii "d")), (3, Quoted.inQuotes (ascii "it\\'s"))]
    let draft := ops.foldl (fun d op => d.replace op.1 op.2) (ofSource source true [])
    let rewritten := Source.mk source.name draft.content
    rewritten.content = ascii "<?php __('it\\'s', 'd') /* c" ∧
    (∀ i, rewritten.tokens[i]?.map Token.toLexeme =
      source.tokens[i]?.map fun token => ⟨token.kind, (lastText ops i).getD token.text⟩) ∧
    rewritten.errors.map (·.fault.code) = source.errors.map (·.fault.code) := by
  refine ⟨by decide +kernel, tokens_after_replacements _ true [] _ fun op hop => ?_⟩
  simp only [List.mem_cons, List.not_mem_nil, or_false] at hop
  rcases hop with rfl | rfl
  · exact ⟨⟨⟨.string, ascii "\"b\""⟩, 14⟩, ascii "d", by decide +kernel⟩
  · exact ⟨⟨⟨.string, ascii "'a'"⟩, 9⟩, ascii "it\\'s", by decide +kernel⟩

end TextDomain
