import TextDomain.Token.Scanner
import TextDomain.Proofs.Tags

/-!
# Scanning is reading what is left

A scanner that goes by positions reads what `Mode.read` reads off the rest of the content
(`Scanner.rest`). Each function of the scanner is an equation: it moves the scanner on by the length
of what the function on texts of the same name takes from the rest. NUL bytes past the end do no
harm, because no class of bytes that is asked for holds them.

What the scanner skips it skips piece by piece (`Scanner.skipTrivia_eq`), and every token is the
lexeme with its text at the start of the rest, together with the scanner after it
(`Scanner.reads`). Strings and heredocs have a module of their own.
-/

namespace TextDomain

namespace Bytes

variable {s : Bytes}

/-- Past the end there are NUL bytes, which are in no class. -/
theorem class_headD (cls : UInt8 → Bool) (hcls : cls Byte.nul = false) (s : Bytes) :
    cls (s.headD Byte.nul) = startsIn cls s := by
  cases s with
  | nil => exact hcls
  | cons c s => rfl

theorem headD_eq_iff {c : UInt8} (hc : c ≠ Byte.nul) :
    s.headD Byte.nul = c ↔ s.head? = some c := by
  cases s with
  | nil => simp [hc.symm]
  | cons d s => simp

theorem takeWhile_eq_nil_iff {cls : UInt8 → Bool} :
    s.takeWhile cls = [] ↔ startsIn cls s = false := by
  cases s with
  | nil => simp
  | cons c s =>
    rw [List.takeWhile_cons, startsIn_cons]
    cases cls c <;> simp

theorem take_eq_iff {lead : Bytes} : s.take lead.length = lead ↔ lead <+: s := by
  rw [List.prefix_iff_eq_take, eq_comm]

end Bytes

theorem Number.sign_of_digit {s : Bytes} (h : Bytes.startsIn Byte.isDigit s = true) :
    sign s = [] := by
  cases s with
  | nil => rfl
  | cons d s =>
    rw [sign, if_neg]
    rintro ⟨rfl | rfl, -⟩ <;> cases h

/-- What goes on record about a skipped piece that starts at an offset. -/
def Trivia.errorsAt (offset : Nat) : Trivia → List LexError
  | unclosed text => [⟨.openComment, offset, offset + text.length⟩]
  | _ => []

namespace Scanner

variable {s : Scanner} {c : UInt8} {t : Bytes}

/-- What the scanner has not passed. -/
def rest (s : Scanner) : Bytes :=
  s.source.content.drop s.pos

@[simp] theorem rest_skip (n : Nat) (s : Scanner) : (s.skip n).rest = s.rest.drop n := by
  rw [rest, rest, List.drop_drop]
  rfl

@[simp] theorem rest_mark (s : Scanner) : s.mark.rest = s.rest := rfl

@[simp] theorem skip_skip (m n : Nat) (s : Scanner) : (s.skip m).skip n = s.skip (m + n) := by
  rw [skip, skip, skip, Nat.add_assoc]

theorem peekAt_eq (s : Scanner) (n : Nat) : s.peekAt n = (s.rest.drop n).headD Byte.nul := by
  rw [rest, List.drop_drop, List.headD_eq_head?_getD, List.head?_drop]
  exact List.getD_eq_getElem?_getD

theorem peek_eq (s : Scanner) : s.peek = s.rest.headD Byte.nul :=
  s.peekAt_eq 0

theorem atEnd_iff : s.atEnd = true ↔ s.rest = [] := by
  rw [atEnd, decide_eq_true_iff, rest, List.drop_eq_nil_iff]

theorem ahead_eq (s : Scanner) (n : Nat) : s.ahead n = s.rest.take n := by
  rw [ahead, Source.slice, Nat.add_sub_cancel_left, rest]

theorem peek_of_rest_nil (h : s.rest = []) : s.peek = Byte.nul := by
  rw [peek_eq, h]
  rfl

theorem exists_rest_of_not_atEnd (h : ¬ s.atEnd = true) : ∃ c t, s.rest = c :: t :=
  List.exists_cons_of_ne_nil fun hrest => h (atEnd_iff.mpr hrest)

section Ahead

variable (hrest : s.rest = c :: t)
include hrest

theorem peek_of_rest : s.peek = c := by
  rw [peek_eq, hrest]
  rfl

theorem peekAt_one : s.peekAt 1 = t.headD Byte.nul := by
  rw [peekAt_eq, hrest]
  rfl

theorem peekAt_two : s.peekAt 2 = (t.drop 1).headD Byte.nul := by
  rw [peekAt_eq, hrest]
  rfl

theorem rest_skip_one : (s.skip 1).rest = t := by
  rw [rest_skip, hrest]
  rfl

theorem not_atEnd : ¬ s.atEnd = true := fun h => by
  rw [atEnd_iff, hrest] at h
  cases h

theorem class_peekAt_one (cls : UInt8 → Bool) (hcls : cls Byte.nul = false) :
    cls (s.peekAt 1) = Bytes.startsIn cls t := by
  rw [peekAt_one hrest, Bytes.class_headD cls hcls]

theorem peekAt_one_eq_iff {d : UInt8} (hd : d ≠ Byte.nul) :
    s.peekAt 1 = d ↔ t.head? = some d := by
  rw [peekAt_one hrest, Bytes.headD_eq_iff hd]

end Ahead

theorem rest_skip_two {d : UInt8} (hrest : s.rest = c :: d :: t) : (s.skip 2).rest = t := by
  rw [rest_skip, hrest]
  rfl

/-! ## Moving on -/

/-- The scanner moves on by a text `f` that grows as long as `p` holds. -/
theorem skipWhile_eq {p : Scanner → Bool} {f : Bytes → Bytes} (hnil : f [] = [])
    (hcons : ∀ {s : Scanner} {c t}, s.rest = c :: t →
      f (c :: t) = if p s then c :: f t else []) (s : Scanner) :
    s.skipWhile p = s.skip (f s.rest).length := by
  fun_induction skipWhile p s with
  | case1 s h =>
    rw [atEnd_iff.mp h, hnil]
    rfl
  | case2 s h _ hp ih =>
    obtain ⟨c, t, hrest⟩ := exists_rest_of_not_atEnd h
    rw [ih, rest_skip_one hrest, skip_skip, hrest, hcons hrest, if_pos hp, List.length_cons,
      Nat.add_comm]
  | case3 s h _ hp =>
    obtain ⟨c, t, hrest⟩ := exists_rest_of_not_atEnd h
    rw [hrest, hcons hrest, if_neg hp]
    rfl

theorem skipWhile_peek (cls : UInt8 → Bool) (s : Scanner) :
    s.skipWhile (fun s => cls s.peek) = s.skip (s.rest.takeWhile cls).length :=
  skipWhile_eq rfl (fun hrest => by rw [List.takeWhile_cons, peek_of_rest hrest]) s

theorem skipLineComment_eq (s : Scanner) :
    s.skipLineComment = s.skip (Trivia.lineBody s.rest).length := by
  refine skipWhile_eq rfl (fun {s c t} hrest => ?_) s
  rw [Trivia.lineBody, peek_of_rest hrest]
  have hends : (c != Byte.lf && !(c == Byte.question && s.peekAt 1 == Byte.greater)) = true ↔
      ¬ (c = Byte.lf ∨ (c = Byte.question ∧ t.head? = some Byte.greater)) := by
    rw [← peekAt_one_eq_iff hrest (by decide)]
    simp [← not_and_or]
  simp only [hends, ite_not]

/-- The scanner in the middle of a block comment passes it, or comes to the end. -/
theorem skipWhile_blockBody? (s : Scanner) :
    let stop := s.skipWhile fun s => !(s.peek == Byte.star && s.peekAt 1 == Byte.slash)
    match Trivia.blockBody? s.rest with
    | some body => stop.atEnd = false ∧ stop.skip 2 = s.skip body.length
    | none => stop.atEnd = true ∧ stop = s.skip s.rest.length := by
  fun_induction skipWhile _ s with
  | case1 s h =>
    rw [atEnd_iff.mp h]
    exact ⟨h, rfl⟩
  | case2 s h _ hp ih =>
    obtain ⟨c, t, hrest⟩ := exists_rest_of_not_atEnd h
    have hopen : ¬ (c = Byte.star ∧ t.head? = some Byte.slash) := by
      rw [← peekAt_one_eq_iff hrest (by decide), ← peek_of_rest hrest]
      simpa [← not_and_or] using hp
    rw [rest_skip_one hrest] at ih
    rw [hrest, Trivia.blockBody?, if_neg hopen]
    cases hbody : Trivia.blockBody? t with
    | none =>
      rw [hbody] at ih
      exact ⟨ih.1, by rw [ih.2, skip_skip, List.length_cons, Nat.add_comm]⟩
    | some body =>
      rw [hbody] at ih
      exact ⟨ih.1, by rw [ih.2, skip_skip, List.length_cons, Nat.add_comm]⟩
  | case3 s h _ hp =>
    obtain ⟨c, t, hrest⟩ := exists_rest_of_not_atEnd h
    have hclosed : c = Byte.star ∧ t.head? = some Byte.slash := by
      rw [← peekAt_one_eq_iff hrest (by decide), ← peek_of_rest hrest]
      simpa using hp
    rw [hrest, Trivia.blockBody?, if_pos hclosed]
    exact ⟨Bool.eq_false_iff.mpr h, rfl⟩

/-! ## Space and comments -/

/-- The scanner after a skipped piece. A block comment is marked as a token is. -/
def past (s : Scanner) (piece : Trivia) : Scanner :=
  { s with
    pos := s.pos + piece.text.length
    start := match piece with
      | .space _ | .lineComment _ => s.start
      | .blockComment _ | .unclosed _ => s.pos
    errors := s.errors ++ piece.errorsAt s.pos }

@[simp] theorem rest_past (s : Scanner) (piece : Trivia) :
    (s.past piece).rest = s.rest.drop piece.text.length :=
  s.rest_skip piece.text.length

theorem past_space (s : Scanner) (c : UInt8) : s.past (.space c) = s.skip 1 := by
  simp [past, skip, Trivia.text, Trivia.errorsAt]

theorem past_lineComment (s : Scanner) (text : Bytes) :
    s.past (.lineComment text) = s.skip text.length := by
  simp [past, skip, Trivia.text, Trivia.errorsAt]

theorem past_blockComment (s : Scanner) (text : Bytes) :
    s.past (.blockComment text) = s.mark.skip text.length := by
  simp [past, skip, mark, Trivia.text, Trivia.errorsAt]

theorem past_unclosed (s : Scanner) (text : Bytes) :
    s.past (.unclosed text) = (s.mark.skip text.length).report .openComment := rfl

theorem skipBlockComment_eq (hrest : s.rest = Byte.slash :: Byte.star :: t) :
    some s.skipBlockComment = (Trivia.slashComment? (Byte.star :: t)).map s.past := by
  have hbody := skipWhile_blockBody? (s.mark.skip 2)
  rw [rest_skip_two (s := s.mark) hrest] at hbody
  rw [Trivia.slashComment?, if_neg (by decide), if_pos rfl]
  unfold skipBlockComment
  dsimp only at hbody ⊢
  cases hclosed : Trivia.blockBody? t with
  | none =>
    rw [hclosed] at hbody
    rw [if_pos hbody.1, hbody.2, skip_skip, Nat.add_comm, Option.map_some, past_unclosed]
    rfl
  | some body =>
    rw [hclosed] at hbody
    rw [if_neg (Bool.eq_false_iff.mp hbody.1), hbody.2, skip_skip, Nat.add_comm, Option.map_some,
      past_blockComment]
    rfl

/-- A piece is skipped as it is read off what is left. -/
theorem skipPiece?_eq (s : Scanner) : s.skipPiece? = (Trivia.first? s.rest).map s.past := by
  rw [skipPiece?]
  cases hrest : s.rest with
  | nil => rw [if_pos (atEnd_iff.mpr hrest), Trivia.first?, Option.map_none]
  | cons c t =>
    have hline : s.past (.lineComment (Trivia.lineBody (c :: t))) = s.skipLineComment := by
      rw [skipLineComment_eq, past_lineComment, hrest]
    rw [if_neg (not_atEnd hrest), peek_of_rest hrest, Trivia.first?]
    by_cases hspace : Byte.isSpace c = true
    · rw [if_pos hspace, if_pos hspace, Option.map_some, past_space]
    rw [if_neg hspace, if_neg hspace]
    by_cases hhash : c = Byte.hash
    · subst hhash
      rw [if_pos rfl, if_pos rfl, apply_ite (Option.map s.past), Option.map_none, Option.map_some]
      simp only [peekAt_one_eq_iff hrest (by decide : Byte.openBracket ≠ Byte.nul), ← hline]
      rfl
    rw [if_neg hhash, if_neg hhash]
    by_cases hslash : c = Byte.slash
    · subst hslash
      rw [if_pos rfl, if_pos rfl]
      cases t with
      | nil => rw [peekAt_one hrest]; rfl
      | cons d t =>
        have hnext : s.peekAt 1 = d := peekAt_one hrest
        rw [hnext]
        by_cases hd : d = Byte.slash
        · subst hd
          rw [if_pos rfl, ← hline]
          rfl
        by_cases hstar : d = Byte.star
        · subst hstar
          rw [if_neg hd, if_pos rfl, skipBlockComment_eq hrest]
        · rw [if_neg hd, if_neg hstar, Trivia.slashComment?, if_neg hd, if_neg hstar,
            Option.map_none]
    · rw [if_neg hslash, if_neg hslash, Option.map_none]

/-- All that is skipped is skipped piece by piece. -/
theorem skipTrivia_eq (s : Scanner) : s.skipTrivia = (Trivia.run s.rest).foldl past s := by
  fun_induction skipTrivia s with
  | case1 s h =>
    rw [skipPiece?_eq, Option.map_eq_none_iff] at h
    rw [Trivia.run_of_none h, List.foldl_nil]
  | case2 s s' h _ ih =>
    rw [skipPiece?_eq] at h
    obtain ⟨piece, hpiece, rfl⟩ := Option.map_eq_some_iff.mp h
    rw [ih, rest_past, Trivia.run_of_some hpiece, List.foldl_cons]

theorem source_foldl_past (pieces : List Trivia) (s : Scanner) :
    (pieces.foldl past s).source = s.source := by
  induction pieces generalizing s with
  | nil => rfl
  | cons piece pieces ih => exact ih (s.past piece)

theorem mode_foldl_past (pieces : List Trivia) (s : Scanner) :
    (pieces.foldl past s).mode = s.mode := by
  induction pieces generalizing s with
  | nil => rfl
  | cons piece pieces ih => exact ih (s.past piece)

theorem pos_foldl_past (pieces : List Trivia) (s : Scanner) :
    (pieces.foldl past s).pos = s.pos + (Trivia.join pieces).length := by
  induction pieces generalizing s with
  | nil => rfl
  | cons piece pieces ih =>
    rw [List.foldl_cons, ih, Trivia.join_cons, List.length_append, ← Nat.add_assoc]
    rfl

/-- Only the last piece can be a comment without an end. -/
theorem errors_foldl_past {after : Bytes} {pieces : List Trivia}
    (hall : Trivia.AllFit after pieces) (s : Scanner) :
    (pieces.foldl past s).errors = s.errors ++ ((Trivia.unclosed? pieces).map fun comment =>
      let stop := s.pos + (Trivia.join pieces).length
      LexError.mk .openComment (stop - comment.length) stop).toList := by
  induction pieces generalizing s with
  | nil => exact (List.append_nil _).symm
  | cons piece pieces ih =>
    rcases Trivia.eq_unclosed_or_whole piece with ⟨text, rfl⟩ | hwhole
    · obtain ⟨hjoin, -⟩ := List.append_eq_nil_iff.mp hall.1.2
      obtain rfl := hall.2.eq_nil_of_join hjoin
      simp [past, Trivia.errorsAt, Trivia.unclosed?, Trivia.text]
    · have hquiet : (s.past piece).errors = s.errors := by
        cases piece with
        | unclosed text => cases hwhole []
        | _ => exact List.append_nil _
      rw [List.foldl_cons, ih hall.2, hquiet, hwhole, Trivia.join_cons, List.length_append,
        ← Nat.add_assoc]
      rfl

/-! ## Tokens -/

/-- The token of a lexeme that starts where the scanner is, and the scanner after it. -/
def reads (s : Scanner) (l : Lexeme) : Token × Scanner :=
  (⟨l, s.pos⟩,
    { s with
      pos := s.pos + l.text.length
      mode := l.kind.modeAfter s.mode
      errors := s.errors ++
        (l.fault?.map fun fault => LexError.mk fault s.pos (s.pos + l.text.length)).toList })

theorem slice_pos {text : Bytes} (htext : text <+: s.rest) :
    s.source.slice s.pos (s.pos + text.length) = text := by
  rw [Source.slice, Nat.add_sub_cancel_left]
  exact Bytes.take_eq_iff.mpr htext

section Tokens

variable {l : Lexeme} (hstart : s.start = s.pos) (htext : l.text <+: s.rest)
include hstart htext

/-- A whole token is read off what is left. -/
theorem emit_eq (hkind : l.kind ≠ .error) :
    emit l.kind { s.skip l.text.length with mode := l.kind.modeAfter s.mode } = s.reads l := by
  have hfault : l.fault? = none := if_pos hkind
  simp only [emit, token, reads, skip, hfault, hstart, slice_pos htext, Option.map_none,
    Option.toList_none, List.append_nil]

/-- So is one that the content ends in, which goes on record. -/
theorem emitError_eq {fault : Fault} (hkind : l.kind = .error) (hfault : l.fault? = some fault) :
    (s.skip l.text.length).emitError fault = s.reads l := by
  have hmode : l.kind.modeAfter s.mode = s.mode := by rw [hkind]; rfl
  simp only [emitError, report, emit, token, reads, skip, hfault, hstart, slice_pos htext, hmode,
    ← hkind, Option.map_some, Option.toList_some]

end Tokens

/-! ## Tags and markup -/

theorem matchesAhead_iff {text : Bytes} : s.matchesAhead text = true ↔
    (s.rest.take text.length).map Byte.lower = text.map Byte.lower := by
  rw [matchesAhead, ahead_eq, beq_iff_eq]

theorem matchesAhead_short : s.matchesAhead (ascii "<?=") = (ascii "<?=").isPrefixOf s.rest := by
  have hlower : ∀ {c : UInt8}, c < 0x41 → ∀ d, Byte.lower d = c ↔ d = c :=
    fun hc _ => Byte.lower_eq_iff hc
  rw [Bool.eq_iff_iff, matchesAhead_iff, List.isPrefixOf_iff_prefix, ← Bytes.take_eq_iff]
  generalize s.rest.take (ascii "<?=").length = start
  change start.map Byte.lower = [0x3c, 0x3f, 0x3d] ↔ start = [0x3c, 0x3f, 0x3d]
  match start with
  | [] => simp
  | [_] => simp
  | [_, _] => simp
  | [a, b, c] => simp [hlower]
  | _ :: _ :: _ :: _ :: _ => simp

theorem matchesAhead_long :
    s.matchesAhead (ascii "<?php") = true ↔ (s.rest.take 5).map Byte.lower = ascii "<?php" :=
  matchesAhead_iff

theorem atOpenTag_eq (s : Scanner) : s.atOpenTag = (Markup.openTag? s.rest).isSome := by
  have hends : (s.peekAt 5 == Byte.nul || s.peekAt 5 == Byte.space || s.peekAt 5 == Byte.tab ||
      s.peekAt 5 == Byte.lf || s.peekAt 5 == Byte.cr) = Markup.endsTag (s.rest.drop 5) := by
    rw [peekAt_eq]
    cases s.rest.drop 5 with
    | nil => rfl
    | cons c t => rfl
  rw [Bool.eq_iff_iff, atOpenTag, hends, Bool.or_eq_true, Bool.and_eq_true, matchesAhead_short,
    matchesAhead_long, Markup.openTag?]
  split
  · rename_i hshort
    simp [hshort]
  · rename_i hshort
    split
    · rename_i hlong
      simp only [hlong, and_self, or_true, Option.isSome_some]
    · rename_i hlong
      simp only [hshort, hlong, or_self, Option.isSome_none, Bool.false_eq_true]

theorem openTag_eq {tag : Bytes} (htag : Markup.openTag? s.rest = some tag) :
    s.openTag = s.mark.reads ⟨.openTag, tag⟩ := by
  have hlength : (if s.mark.matchesAhead (ascii "<?=") then 3 else 5) = tag.length := by
    rw [matchesAhead_short, rest_mark]
    rw [Markup.openTag?] at htag
    split at htag
    · rename_i hshort
      obtain rfl := Option.some.inj htag
      have hlength := (List.isPrefixOf_iff_prefix.mp hshort).length_le
      rw [if_pos hshort, List.length_take]
      exact (Nat.min_eq_left hlength).symm
    · rename_i hshort
      split at htag
      · rename_i hlong
        obtain rfl := Option.some.inj htag
        have hlength := congrArg List.length hlong.1
        rw [List.length_map] at hlength
        rw [if_neg hshort, hlength]
        rfl
      · cases htag
  rw [openTag, hlength]
  exact emit_eq (l := ⟨.openTag, tag⟩) rfl (Markup.openTag?_isPrefix htag) (by simp)

theorem skipWhile_html (s : Scanner) :
    s.skipWhile (fun s => !s.atOpenTag) = s.skip (Markup.html s.rest).length := by
  refine skipWhile_eq rfl (fun {s c t} hrest => ?_) s
  rw [Markup.html, atOpenTag_eq, hrest]
  cases (Markup.openTag? (c :: t)).isSome <;> rfl

theorem inlineHtml_eq (s : Scanner) :
    s.inlineHtml = s.mark.reads ⟨.inlineHtml, Markup.html s.rest⟩ := by
  rw [inlineHtml, skipWhile_html]
  exact emit_eq (l := ⟨.inlineHtml, _⟩) rfl (Markup.html_isPrefix s.rest) (by simp)

theorem skip_lineEnd (s : Scanner) :
    (if s.peek = Byte.lf then s.skip 1
      else if s.peek = Byte.cr ∧ s.peekAt 1 = Byte.lf then s.skip 2 else s) =
      s.skip (Markup.lineEnd s.rest).length := by
  rw [Markup.lineEnd]
  cases hrest : s.rest with
  | nil =>
    rw [peek_of_rest_nil hrest]
    rfl
  | cons c t =>
    have hpair : [Byte.cr, Byte.lf].isPrefixOf (c :: t) = true ↔
        c = Byte.cr ∧ s.peekAt 1 = Byte.lf := by
      rw [peekAt_one_eq_iff hrest (by decide)]
      cases t with
      | nil => simp
      | cons d t =>
        rw [List.isPrefixOf_iff_prefix, List.cons_prefix_cons, List.cons_prefix_cons,
          List.head?_cons, Option.some_inj, eq_comm, eq_comm (a := Byte.lf)]
        simp
    rw [peek_of_rest hrest]
    simp only [List.head?_cons, Option.some.injEq, hpair]
    split
    · rfl
    · split <;> rfl

theorem closeTag_eq (hstart : s.start = s.pos) (hrest : s.rest = Byte.question :: c :: t)
    (hc : c = Byte.greater) : s.closeTag = s.reads ⟨.closeTag, ascii "?>" ++ Markup.lineEnd t⟩ := by
  have hprefix : ascii "?>" ++ Markup.lineEnd t <+: s.rest := by
    subst hc
    rw [hrest]
    exact (List.prefix_append_right_inj (ascii "?>")).mpr (Markup.lineEnd_isPrefix t)
  have hlength : 2 + (Markup.lineEnd t).length = (ascii "?>" ++ Markup.lineEnd t).length := by
    rw [List.length_append]
    rfl
  have hend := (s.skip 2).skip_lineEnd
  rw [closeTag]
  simp only [hend]
  rw [rest_skip_two hrest, skip_skip, hlength]
  exact emit_eq (l := ⟨.closeTag, _⟩) hstart hprefix (by simp)

/-! ## Names and numbers -/

theorem identifier_eq (hstart : s.start = s.pos) :
    s.identifier = s.reads ⟨.identifier, Name.qualified s.rest⟩ := by
  have hskip : (s.skipWhile fun s => Byte.isNameByte s.peek ||
      (s.peek == Byte.backslash && Byte.isNameStart (s.peekAt 1))) =
      s.skip (Name.qualified s.rest).length := by
    refine skipWhile_eq rfl (fun {s c t} hrest => ?_) s
    rw [Name.qualified, peek_of_rest hrest, class_peekAt_one hrest Byte.isNameStart rfl]
    simp only [Bool.or_eq_true, Bool.and_eq_true, beq_iff_eq]
  rw [identifier, hskip]
  exact emit_eq (l := ⟨.identifier, _⟩) hstart (Name.qualified_isPrefix s.rest) (by simp)

theorem variableName_eq (hstart : s.start = s.pos) (hrest : s.rest = Byte.dollar :: t) :
    s.variableName = s.reads ⟨.var, Byte.dollar :: t.takeWhile Byte.isNameByte⟩ := by
  have hprefix : Byte.dollar :: t.takeWhile Byte.isNameByte <+: s.rest := by
    rw [hrest]
    exact (List.prefix_cons_inj _).mpr (List.takeWhile_prefix _)
  rw [variableName, skipWhile_peek, rest_skip_one hrest, skip_skip, Nat.add_comm]
  exact emit_eq (l := ⟨.var, _⟩) hstart hprefix (by simp)

theorem skipDigits_eq (s : Scanner) : s.skipDigits = s.skip (Number.digits s.rest).length :=
  s.skipWhile_peek fun c => Byte.isDigit c || c == Byte.underscore

/-- A point without digits after it counts only after a digit. -/
theorem skipFraction_eq (h : s.start < s.pos ∨ Bytes.startsIn Byte.isDigit (s.rest.drop 1)) :
    s.skipFraction = s.skip (Number.fraction s.rest).length := by
  rw [skipFraction]
  cases hrest : s.rest with
  | nil =>
    rw [peek_of_rest_nil hrest]
    rfl
  | cons c t =>
    rw [hrest, List.drop_one, List.tail_cons] at h
    rw [peek_of_rest hrest, class_peekAt_one hrest Byte.isDigit rfl, Number.fraction]
    by_cases hdot : c = Byte.dot
    · by_cases hdigit : Bytes.startsIn Byte.isDigit t = true
      · rw [if_pos ⟨hdot, hdigit⟩, if_pos hdot, if_pos hdigit, skipDigits_eq, rest_skip_one hrest,
          skip_skip, Nat.add_comm]
        rfl
      · rw [if_neg (fun h => hdigit h.2), if_pos ⟨hdot, h.resolve_right hdigit⟩, if_pos hdot,
          if_neg hdigit]
        rfl
    · rw [if_neg (fun h => hdot h.1), if_neg (fun h => hdot h.1), if_neg hdot]
      rfl

theorem skipExponent_eq (s : Scanner) :
    s.skipExponent = s.skip (Number.exponent s.rest).length := by
  rw [skipExponent]
  cases hrest : s.rest with
  | nil =>
    rw [peek_of_rest_nil hrest]
    rfl
  | cons c t =>
    rw [peek_of_rest hrest, Number.exponent]
    by_cases hmark : c = 0x65 ∨ c = 0x45
    · rw [if_pos hmark, if_pos hmark]
      dsimp only
      rw [skipWhile_peek, class_peekAt_one hrest Byte.isDigit rfl]
      by_cases hdigit : Bytes.startsIn Byte.isDigit t = true
      · rw [if_pos hdigit, rest_skip_one hrest, skip_skip, Number.sign_of_digit hdigit,
          List.length_nil, List.drop_zero,
          if_neg (mt Bytes.takeWhile_eq_nil_iff.mp (by simp [hdigit])), Nat.add_comm]
        rfl
      -- without digits nothing is taken, not even the mark
      have hnothing : s.skip (s.rest.takeWhile Byte.isDigit).length = s.skip 0 := by
        rw [hrest]
        rcases hmark with rfl | rfl <;> rfl
      rw [if_neg hdigit]
      cases t with
      | nil =>
        rw [peekAt_one hrest, if_neg fun h => absurd h.1 (by decide)]
        exact hnothing
      | cons d t =>
        have hnext : s.peekAt 1 = d := peekAt_one hrest
        rw [hnext, peekAt_two hrest, List.drop_one, List.tail_cons,
          Bytes.class_headD Byte.isDigit rfl, Number.sign]
        by_cases hsign : (d = Byte.plus ∨ d = Byte.minus) ∧ Bytes.startsIn Byte.isDigit t = true
        · have hpower : t.takeWhile Byte.isDigit ≠ [] :=
            mt Bytes.takeWhile_eq_nil_iff.mp (by simp [hsign.2])
          rw [if_pos hsign, if_pos hsign, rest_skip_two hrest, skip_skip, List.length_singleton,
            List.drop_one, List.tail_cons, if_neg hpower, Nat.add_comm]
          rfl
        · have hpower : (d :: t).takeWhile Byte.isDigit = [] :=
            Bytes.takeWhile_eq_nil_iff.mpr (Bool.eq_false_iff.mpr hdigit)
          rw [if_neg hsign, if_neg hsign, List.length_nil, List.drop_zero, if_pos hpower]
          exact hnothing
    · rw [if_neg hmark, if_neg hmark]
      rfl

/-- Where the token started matters to a point without digits after it, and to nothing else. A
number that starts with a point has digits after it. -/
theorem skip_decimalNumber (hstart : s.start = s.pos) (h : Number.startsNumber s.rest = true) :
    s.skipDigits.skipFraction.skipExponent = s.skip (Number.decimalNumber s.rest).length := by
  have hbefore : (s.skip (Number.digits s.rest).length).start <
      (s.skip (Number.digits s.rest).length).pos ∨
      Bytes.startsIn Byte.isDigit ((s.skip (Number.digits s.rest).length).rest.drop 1) := by
    cases hrest : s.rest with
    | nil => rw [hrest] at h; cases h
    | cons c t =>
      rw [hrest, Number.startsNumber, Bool.or_eq_true, Bool.and_eq_true, beq_iff_eq] at h
      rcases h with hdigit | ⟨hdot, hdigit⟩
      · left
        simp [skip, hstart, Number.digits, hdigit]
      · right
        subst hdot
        rw [rest_skip, hrest]
        exact hdigit
  rw [skipDigits_eq, skipFraction_eq hbefore, skipExponent_eq]
  simp only [rest_skip, skip_skip, Number.decimalNumber, List.length_append]

theorem number_eq (hstart : s.start = s.pos) {text : Bytes}
    (htext : Number.number? s.rest = some text) : s.number = s.reads ⟨.number, text⟩ := by
  have hprefix := Number.number?_isPrefix htext
  rw [Number.number?] at htext
  split at htext
  · cases htext
  rename_i hnumber
  have hbase : (s.peek = Byte.zero ∧ Number.isBaseMark (s.peekAt 1) = true) ↔
      s.rest.head? = some Byte.zero ∧ Bytes.startsIn Number.isBaseMark (s.rest.drop 1) = true := by
    rw [peek_eq, peekAt_eq, Bytes.headD_eq_iff (by decide),
      Bytes.class_headD Number.isBaseMark (by decide)]
  rw [number]
  simp only [hbase]
  split at htext
  · rename_i hhead
    rw [if_pos hhead]
    obtain rfl := Option.some.inj htext
    have hlength : 2 + ((s.rest.drop 2).takeWhile Byte.isNameByte).length =
        (s.rest.take 2 ++ (s.rest.drop 2).takeWhile Byte.isNameByte).length := by
      match s.rest, hhead with
      | [], h => cases h.1
      | [_], h => cases h.2
      | _ :: _ :: _, _ => rw [List.length_append]; rfl
    rw [skipWhile_peek, rest_skip, skip_skip, hlength]
    exact emit_eq (l := ⟨.number, _⟩) hstart hprefix (by simp)
  · rename_i hhead
    rw [if_neg hhead]
    obtain rfl := Option.some.inj htext
    rw [skip_decimalNumber hstart (by simpa using hnumber)]
    exact emit_eq (l := ⟨.number, _⟩) hstart hprefix (by simp)

/-! ## Operators -/

/-- The step back leaves the scanner where it was. -/
theorem operator_eq (hstart : s.start = s.pos) (hrest : s.rest = c :: t) :
    s.operator = s.reads (Symbol.symbol c t) := by
  have hback : { s.skip 1 with pos := (s.skip 1).pos - 1 } = s := rfl
  have hfind : (fun text : Bytes => s.ahead text.length == text) = (·.isPrefixOf (c :: t)) := by
    funext text
    rw [Bool.eq_iff_iff, beq_iff_eq, ahead_eq, hrest, Bytes.take_eq_iff, List.isPrefixOf_iff_prefix]
  have hprefix : (Symbol.symbol c t).text <+: s.rest := hrest ▸ Symbol.text_isPrefix c t
  rw [operator, peek_of_rest hrest]
  simp only [hback, hfind]
  revert hprefix
  rw [Symbol.symbol]
  split
  · exact fun hprefix => emit_eq (l := ⟨.openParen, [c]⟩) hstart hprefix (by simp)
  split
  · exact fun hprefix => emit_eq (l := ⟨.closeParen, [c]⟩) hstart hprefix (by simp)
  split
  · exact fun hprefix => emit_eq (l := ⟨.comma, [c]⟩) hstart hprefix (by simp)
  · intro hprefix
    cases hop : Symbol.operators.find? (·.isPrefixOf (c :: t)) with
    | none =>
      rw [hop] at hprefix
      exact emit_eq (l := ⟨.operator, [c]⟩) hstart hprefix (by simp)
    | some text =>
      rw [hop] at hprefix
      exact emit_eq (l := ⟨.operator, text⟩) hstart hprefix (by simp)

end Scanner

end TextDomain
