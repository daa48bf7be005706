import TextDomain.Proofs.Delimited
import TextDomain.Proofs.Progress

/-!
# The scanner and the cursor

A scanner stands where a cursor does that has its mode, its position and the rest of the content
(`Scanner.cursor`). One token takes both to the same place, with the same token and the same errors
(`Scanner.simulates_next`), and so does any number of tokens. The place at which the last token
started, which the scanner remembers and the cursor does not know, plays no part.
-/

namespace TextDomain

theorem Markup.closeTag?_eq_none {c : UInt8} {s : Bytes}
    (h : ¬ (c = Byte.question ∧ s.head? = some Byte.greater)) : closeTag? (c :: s) = none := by
  rw [closeTag?, Option.map_eq_none_iff, Option.eq_none_iff_forall_ne_some]
  intro rest hrest
  obtain ⟨rfl, rfl⟩ := List.cons.inj (Bytes.eq_of_after? hrest)
  exact h ⟨rfl, rfl⟩

theorem Heredoc.header?_eq_none {s : Bytes} (h : ¬ ascii "<<<" <+: s) : header? s = none := by
  rw [header?, Bytes.after?, if_neg (mt List.isPrefixOf_iff_prefix.mp h)]
  rfl

theorem Number.isSome_number?_iff (s : Bytes) :
    (number? s).isSome = true ↔ startsNumber s = true := by
  by_cases hstarts : startsNumber s = true
  · rw [number?, if_neg (not_not.mpr hstarts)]
    split <;> simp [hstarts]
  · rw [number?, if_pos hstarts]
    simp [hstarts]

namespace Scanner

variable {s : Scanner} {c : UInt8} {t : Bytes}

/-! ## The next token -/

theorem less_isPrefix_iff (hrest : s.rest = c :: t) : ascii "<<<" <+: s.rest ↔
    c = Byte.less ∧ s.peekAt 1 = Byte.less ∧ s.peekAt 2 = Byte.less := by
  rw [peekAt_one_eq_iff hrest (by decide), peekAt_two hrest, Bytes.headD_eq_iff (by decide), hrest]
  constructor
  · rintro ⟨u, hu⟩
    obtain ⟨rfl, rfl⟩ := List.cons.inj hu
    exact ⟨rfl, rfl, rfl⟩
  · rintro ⟨rfl, hsecond, hthird⟩
    obtain ⟨u, rfl⟩ := List.head?_eq_some_iff.mp hsecond
    obtain ⟨v, rfl⟩ := List.head?_eq_some_iff.mp hthird
    exact ⟨v, rfl⟩

/-- What starts with neither a tag, a name nor a number: a string, a heredoc or an operator. -/
theorem enclosed_eq (hstart : s.start = s.pos) (hrest : s.rest = c :: t) :
    (if c = Byte.singleQuote then s.singleQuoted
      else if c = Byte.doubleQuote ∨ c = Byte.backtick then s.doubleQuoted
      else if c = Byte.less ∧ s.peekAt 1 = Byte.less ∧ s.peekAt 2 = Byte.less then s.heredoc
      else s.operator) =
    s.reads ((Quoted.quoted? (c :: t) <|> Heredoc.heredoc? (c :: t)).getD (Symbol.symbol c t)) := by
  by_cases hquote : Quoted.isQuote c = true
  · obtain ⟨l, hl⟩ : ∃ l, Quoted.quoted? (c :: t) = some l := by
      rw [Quoted.quoted?, if_pos hquote]
      split <;> exact ⟨_, rfl⟩
    rw [hl]
    by_cases hsingle : c = Byte.singleQuote
    · rw [if_pos hsingle]
      exact singleQuoted_eq hstart (hsingle ▸ hrest) (hrest ▸ hl)
    · have hdouble : c = Byte.doubleQuote ∨ c = Byte.backtick := by
        simpa [Quoted.isQuote, hsingle] using hquote
      rw [if_neg hsingle, if_pos hdouble]
      exact doubleQuoted_eq hstart hrest hdouble (hrest ▸ hl)
  · have hplain : ¬ c = Byte.singleQuote ∧ ¬ (c = Byte.doubleQuote ∨ c = Byte.backtick) := by
      simpa [Quoted.isQuote, or_assoc] using hquote
    have hnone : Quoted.quoted? (c :: t) = none := if_neg hquote
    rw [if_neg hplain.1, if_neg hplain.2, hnone]
    by_cases hless : ascii "<<<" <+: s.rest
    · obtain ⟨u, hu⟩ := hless
      rw [if_pos ((less_isPrefix_iff hrest).mp ⟨u, hu⟩), heredoc_eq hstart hu.symm, hrest]
      obtain ⟨rfl, rfl⟩ := List.cons.inj (hu.trans hrest)
      rfl
    · rw [if_neg (mt (less_isPrefix_iff hrest).mpr hless), operator_eq hstart hrest,
        Heredoc.heredoc?, ← hrest, Heredoc.header?_eq_none hless]
      rfl

/-- The classes are tried in the same order, and each fits in the same cases. -/
theorem codeToken_eq (hstart : s.start = s.pos) (hrest : s.rest = c :: t) :
    s.codeToken = s.reads (codeLexeme s.rest) := by
  rw [codeToken, peek_of_rest hrest, class_peekAt_one hrest Byte.isNameStart rfl,
    class_peekAt_one hrest Byte.isDigit rfl, enclosed_eq hstart hrest]
  by_cases htag : c = Byte.question ∧ s.peekAt 1 = Byte.greater
  · rw [if_pos htag, hrest]
    obtain ⟨rfl, hgreater⟩ := htag
    obtain ⟨u, rfl⟩ := List.head?_eq_some_iff.mp
      ((peekAt_one_eq_iff hrest (by decide)).mp hgreater)
    exact closeTag_eq hstart hrest rfl
  rw [if_neg htag]
  rw [peekAt_one_eq_iff hrest (by decide)] at htag
  replace htag := Markup.closeTag?_eq_none htag
  by_cases hvar : c = Byte.dollar ∧ Bytes.startsIn Byte.isNameStart t = true
  · have hname : Name.variableName? (c :: t) = some (Byte.dollar :: t.takeWhile Byte.isNameByte) :=
      if_pos hvar
    rw [if_pos hvar, variableName_eq hstart (hvar.1 ▸ hrest), hrest]
    simp only [codeLexeme, htag, hname]
    rfl
  rw [if_neg hvar]
  replace hvar : Name.variableName? (c :: t) = none := if_neg hvar
  by_cases hident : Byte.isNameStart c = true ∨
      c = Byte.backslash ∧ Bytes.startsIn Byte.isNameStart t = true
  · have hname : Name.identifier? (c :: t) = some (Name.qualified (c :: t)) := if_pos hident
    rw [if_pos hident, identifier_eq hstart, hrest]
    simp only [codeLexeme, htag, hvar, hname]
    rfl
  rw [if_neg hident]
  replace hident : Name.identifier? (c :: t) = none := if_neg hident
  have hnumber : (Number.number? (c :: t)).isSome = true ↔
      Byte.isDigit c = true ∨ c = Byte.dot ∧ Bytes.startsIn Byte.isDigit t = true := by
    simpa [Number.startsNumber] using Number.isSome_number?_iff (c :: t)
  cases htext : Number.number? (c :: t) with
  | some text =>
    rw [if_pos (hnumber.mp (by rw [htext]; rfl)), number_eq hstart (hrest ▸ htext), hrest]
    simp only [codeLexeme, htag, hvar, hident, htext]
    rfl
  | none =>
    rw [if_neg (mt hnumber.mpr (by rw [htext]; simp)), hrest]
    simp only [codeLexeme, htag, hvar, hident, htext]
    rfl

/-- The cursor that stands where the scanner does. -/
def cursor (s : Scanner) : Cursor :=
  ⟨s.mode, s.pos, s.rest⟩

theorem cursor_reads (s : Scanner) (l : Lexeme) : (s.reads l).2.cursor =
    ⟨l.kind.modeAfter s.mode, s.pos + l.text.length, s.rest.drop l.text.length⟩ := by
  rw [rest, List.drop_drop]
  rfl

/-- A token that a scanner read, and the scanner after it, are as the cursor reads it. -/
structure Simulates (s : Scanner) (read : Token × Scanner) : Prop where
  token : read.1 = s.cursor.step.token
  source : read.2.source = s.source
  cursor : read.2.cursor = s.cursor.next
  errors : read.2.errors = s.errors ++ s.cursor.step.error?.toList

/-- What is read after a gap is read with it. After a comment without an end there is nothing. -/
theorem simulates_reads (s gap : Scanner) (hsource : gap.source = s.source)
    (hmode : gap.mode = s.mode) (hpos : gap.pos = s.pos + (s.mode.read s.rest).gapSize)
    (herrors : gap.errors = s.errors ++
      ((Trivia.unclosed? (s.mode.read s.rest).gap).map fun comment =>
        LexError.mk .openComment (gap.pos - comment.length) gap.pos).toList) :
    s.Simulates (gap.reads (s.mode.read s.rest).lexeme) where
  token := by
    rw [reads, hpos]
    rfl
  source := hsource
  cursor := by
    have hrest : gap.rest = s.rest.drop (s.mode.read s.rest).gapSize := by
      rw [rest, hsource, hpos, ← List.drop_drop]
      rfl
    rw [cursor_reads, hmode, hpos, hrest, List.drop_drop, Nat.add_assoc]
    rfl
  errors := by
    have hstop : s.cursor.step.stop = gap.pos + (s.mode.read s.rest).lexeme.text.length := by
      rw [hpos, Nat.add_assoc]
      rfl
    have hfault : s.cursor.step.reading.fault? = (s.mode.read s.rest).fault? := rfl
    rw [Step.error?, hfault, hstop, reads, herrors, Reading.fault?]
    cases hopen : Trivia.unclosed? (s.mode.read s.rest).gap with
    | none =>
      cases hlexeme : (s.mode.read s.rest).lexeme.fault? with
      | none => simp
      | some fault => simp
    | some comment =>
      have hend := ((allFit_gap_read s.mode s.rest).unfinished hopen).1
      rw [lexeme_read_of_drop hend]
      simp [Lexeme.fault?]

theorem emit_eof (hstart : s.start = s.pos) : s.emit .eof = s.reads ⟨.eof, []⟩ :=
  emit_eq (l := ⟨.eof, []⟩) hstart List.nil_prefix (by simp)

theorem next_of_markup (hmode : s.mode = .markup) :
    s.next = s.mark.reads (markupLexeme s.rest) := by
  rw [next, hmode, ← rest_mark]
  dsimp only
  cases hrest : s.mark.rest with
  | nil => rw [if_pos (atEnd_iff.mpr hrest), emit_eof rfl, markupLexeme]
  | cons c t =>
    have htag := s.mark.atOpenTag_eq
    rw [hrest] at htag
    rw [if_neg (not_atEnd hrest), htag, markupLexeme]
    cases hopen : Markup.openTag? (c :: t) with
    | none =>
      rw [← hrest]
      exact inlineHtml_eq s.mark
    | some tag => exact openTag_eq (hrest ▸ hopen)

theorem next_of_code (hmode : s.mode = .code) :
    s.next = s.skipTrivia.mark.reads (codeLexeme s.skipTrivia.rest) := by
  rw [next, hmode, ← rest_mark]
  dsimp only
  cases hrest : s.skipTrivia.mark.rest with
  | nil => rw [if_pos (atEnd_iff.mpr hrest), emit_eof rfl, codeLexeme]
  | cons c t =>
    rw [if_neg (not_atEnd hrest), ← hrest]
    exact codeToken_eq rfl hrest

/-- Going by positions and going by what is left are the same. -/
theorem simulates_next (s : Scanner) : s.Simulates s.next := by
  cases hmode : s.mode with
  | markup =>
    have hread : s.mode.read s.rest = ⟨[], markupLexeme s.rest⟩ := by rw [hmode]; rfl
    have hreads := s.simulates_reads s.mark rfl rfl (by rw [hread]; rfl)
      (by rw [hread]; exact (List.append_nil _).symm)
    rwa [hread, ← next_of_markup hmode] at hreads
  | code =>
    have hread : s.mode.read s.rest = ⟨Trivia.run s.rest,
        codeLexeme (s.rest.drop (Trivia.join (Trivia.run s.rest)).length)⟩ := by rw [hmode]; rfl
    have hpos : s.skipTrivia.pos = s.pos + (Trivia.join (Trivia.run s.rest)).length := by
      rw [skipTrivia_eq, pos_foldl_past]
    have hsource : s.skipTrivia.source = s.source := by rw [skipTrivia_eq, source_foldl_past]
    have hrest : s.skipTrivia.rest = s.rest.drop (Trivia.join (Trivia.run s.rest)).length := by
      rw [rest, hsource, hpos, ← List.drop_drop]
      rfl
    have hall := allFit_gap_read s.mode s.rest
    rw [hread] at hall
    have herrors := errors_foldl_past hall s
    rw [← skipTrivia_eq] at herrors
    have hreads := s.simulates_reads s.skipTrivia.mark hsource
      (by rw [skipTrivia_eq]; exact mode_foldl_past _ s) (by rw [hread]; exact hpos)
      (by rw [hread]; exact hpos ▸ herrors)
    rwa [hread, ← hrest, ← next_of_code hmode] at hreads

/-! ## Many tokens -/

theorem source_after (n : Nat) (s : Scanner) : (s.after n).source = s.source := by
  induction n generalizing s with
  | zero => rfl
  | succ n ih => rw [after, ih, s.simulates_next.source]

theorem cursor_after (n : Nat) (s : Scanner) : (s.after n).cursor = Cursor.next^[n] s.cursor := by
  induction n generalizing s with
  | zero => rfl
  | succ n ih => rw [after, ih, s.simulates_next.cursor, Function.iterate_succ_apply]

theorem take_eq (n : Nat) (s : Scanner) : s.take n = (s.cursor.take n).map Step.token := by
  induction n generalizing s with
  | zero => rfl
  | succ n ih =>
    rw [take, ih, s.simulates_next.token, s.simulates_next.cursor, Cursor.take, List.map_cons]

theorem errors_after (n : Nat) (s : Scanner) :
    (s.after n).errors = s.errors ++ (s.cursor.take n).filterMap Step.error? := by
  induction n generalizing s with
  | zero => exact (List.append_nil _).symm
  | succ n ih =>
    rw [after, ih, s.simulates_next.errors, s.simulates_next.cursor, List.append_assoc, Cursor.take]
    cases herror : s.cursor.step.error? with
    | none => rw [List.filterMap_cons_none herror]; rfl
    | some e => rw [List.filterMap_cons_some herror]; rfl

end Scanner

end TextDomain
