import TextDomain.Proofs.Heredocs
import TextDomain.Proofs.Lookahead
import TextDomain.Proofs.Scanning
import TextDomain.Proofs.Strings

/-!
# Scanning strings and heredocs

The loops that look for the end of a string or a heredoc go to where the functions on texts find it,
or to the end of the content if it is nowhere. In strings between double quotes the scanner notes on
its way whether a variable starts, from the byte at which it is and the next one; the body that the
text function cuts off holds both (`Scanner.closeDouble_eq`). In heredocs it looks at one line after
the other (`Scanner.closeHeredoc_eq`).
-/

namespace TextDomain

namespace Heredoc

/-- A line is passed over up to the line feed that ends it. -/
theorem closing?_takeWhile (label s : Bytes) :
    closing? label false s = (closing? label false (s.drop (s.takeWhile (· != Byte.lf)).length)).map
      (s.takeWhile (· != Byte.lf) ++ ·) := by
  induction s with
  | nil => rfl
  | cons c s ih =>
    by_cases hc : c = Byte.lf
    · simp [hc]
    · have hskip : closing? label false (c :: s) = (closing? label false s).map (c :: ·) := by
        simp [closing?, beq_false_of_ne hc]
      rw [List.takeWhile_cons_of_pos (by simpa using hc), List.length_cons, List.drop_succ_cons,
        hskip, ih, Option.map_map]
      rfl

theorem closing?_lf (label s : Bytes) : closing? label false (Byte.lf :: s) =
    ((marker? label s).or (closing? label false s)).map (Byte.lf :: ·) := by
  rw [← closing?_fresh]
  rfl

theorem closing?_of_marker? {label s marker : Bytes} (h : marker? label s = some marker) :
    closing? label false (Byte.lf :: s) = some (Byte.lf :: marker) := by
  rw [closing?_lf, h, Option.some_or, Option.map_some]

theorem closing?_of_none {label s : Bytes} (h : marker? label s = none) :
    closing? label false (Byte.lf :: s) =
      (closing? label false (s.drop (s.takeWhile (· != Byte.lf)).length)).map
        fun body => Byte.lf :: (s.takeWhile (· != Byte.lf) ++ body) := by
  rw [closing?_lf, h, Option.none_or, closing?_takeWhile, Option.map_map]
  rfl

/-- The blanks that a line starts with are part of it. -/
theorem takeWhile_ne_lf (s : Bytes) : s.takeWhile (· != Byte.lf) = s.takeWhile Byte.isBlank ++
    (s.drop (s.takeWhile Byte.isBlank).length).takeWhile (· != Byte.lf) := by
  have hblanks : ∀ b ∈ s.takeWhile Byte.isBlank, (b != Byte.lf) = true := by
    intro b hb
    have hblank := List.mem_takeWhile_imp hb
    rw [bne_iff_ne]
    rintro rfl
    cases hblank
  rw [← List.takeWhile_append_of_pos hblanks]
  congr 1
  exact List.prefix_iff_eq_append.mp (List.takeWhile_prefix _) |>.symm

end Heredoc

namespace Scanner

variable {s : Scanner} {c : UInt8} {t : Bytes}

/-! ## Strings -/

theorem skipEscape_of_last (hrest : s.rest = [c]) : s.skipEscape = s.skip 1 := by
  rw [skipEscape, if_pos (atEnd_iff.mpr (rest_skip_one hrest))]

theorem skipEscape_of_cons {d : UInt8} (hrest : s.rest = c :: d :: t) :
    s.skipEscape = s.skip 2 := by
  rw [skipEscape, if_neg (not_atEnd (rest_skip_one hrest))]

/-- The scanner goes to the closing quote if there is one, otherwise to the end. -/
theorem closeSingle_eq (s : Scanner) :
    s.closeSingle = ((Quoted.body? Byte.singleQuote s.rest).isSome,
      s.skip ((Quoted.body? Byte.singleQuote s.rest).getD s.rest).length) := by
  fun_induction closeSingle s with
  | case1 s h =>
    rw [atEnd_iff.mp h]
    rfl
  | case2 s h _ hescape ih =>
    obtain ⟨c, t, hrest⟩ := exists_rest_of_not_atEnd h
    obtain rfl : c = Byte.backslash := (peek_of_rest hrest).symm.trans hescape
    cases t with
    | nil =>
      rw [ih, skipEscape_of_last hrest, rest_skip_one hrest, hrest]
      rfl
    | cons d t =>
      rw [ih, skipEscape_of_cons hrest, rest_skip_two hrest, hrest, Quoted.body?_escape,
        Option.isSome_map, Option.getD_map, skip_skip, List.length_cons, List.length_cons,
        Nat.add_comm]
  | case3 s h _ hescape hquote =>
    obtain ⟨c, t, hrest⟩ := exists_rest_of_not_atEnd h
    rw [peek_of_rest hrest] at hescape hquote
    rw [hrest, Quoted.body?_cons_of_ne hescape, if_pos hquote]
    rfl
  | case4 s h _ hescape hquote ih =>
    obtain ⟨c, t, hrest⟩ := exists_rest_of_not_atEnd h
    rw [peek_of_rest hrest] at hescape hquote
    rw [ih, rest_skip_one hrest, hrest, Quoted.body?_cons_of_ne hescape, if_neg hquote,
      Option.isSome_map, Option.getD_map, skip_skip, List.length_cons, Nat.add_comm]

/-- Whether a variable starts in a string shows in the byte after it, which the body holds too. -/
theorem startsVariable_body? {quote : UInt8} {body : Bytes}
    (hbody : Quoted.body? quote t = some body) :
    Quoted.StartsVariable [c] body ↔ Quoted.StartsVariable [c] t := by
  obtain ⟨more, rfl⟩ := Quoted.body?_isPrefix quote hbody
  cases body with
  | nil => exact absurd hbody (Quoted.body?_ne_some_nil _ _)
  | cons d body => simp [Quoted.startsVariable_single]

theorem startsVariable_iff (hrest : s.rest = c :: t) : Quoted.StartsVariable [c] t ↔
    s.peek = Byte.dollar ∧ (Byte.isNameStart (s.peekAt 1) ∨ s.peekAt 1 = Byte.openBrace) ∨
      s.peek = Byte.openBrace ∧ s.peekAt 1 = Byte.dollar := by
  rw [Quoted.startsVariable_single, peek_of_rest hrest, class_peekAt_one hrest Byte.isNameStart rfl,
    peekAt_one_eq_iff hrest (by decide), peekAt_one_eq_iff hrest (by decide)]

/-- The step over a byte of a string that is neither escaped nor the quote: `flag` says whether
something before it interpolates, `flag'` whether something up to it does. -/
theorem closeDouble_step {quote : UInt8} {flag flag' : Bool} (hrest : s.rest = c :: t)
    (hescape : c ≠ Byte.backslash) (hquote : c ≠ quote)
    (hflag : flag' = true ↔ flag = true ∨ Quoted.StartsVariable [c] t)
    (ih : (s.skip 1).closeDouble quote flag' =
      ((Quoted.body? quote (s.skip 1).rest).map (flag' || Quoted.interpolates ·),
        (s.skip 1).skip ((Quoted.body? quote (s.skip 1).rest).getD (s.skip 1).rest).length)) :
    (s.skip 1).closeDouble quote flag' =
      ((Quoted.body? quote s.rest).map (flag || Quoted.interpolates ·),
        s.skip ((Quoted.body? quote s.rest).getD s.rest).length) := by
  have hinterpolates : (Quoted.body? quote t).map (flag' || Quoted.interpolates ·) =
      (Quoted.body? quote t).map fun body => flag || Quoted.interpolates (c :: body) := by
    cases hbody : Quoted.body? quote t with
    | none => rfl
    | some body =>
      rw [Option.map_some, Option.map_some, Option.some_inj, Bool.eq_iff_iff, Bool.or_eq_true,
        Bool.or_eq_true, hflag, Quoted.interpolates_cons_of_ne hescape, startsVariable_body? hbody,
        or_assoc]
  rw [ih, rest_skip_one hrest, hrest, Quoted.body?_cons_of_ne hescape, if_neg hquote,
    hinterpolates, Option.map_map, Option.getD_map, skip_skip, List.length_cons, Nat.add_comm]
  rfl

theorem closeDouble_eq (quote : UInt8) (flag : Bool) (s : Scanner) :
    s.closeDouble quote flag = ((Quoted.body? quote s.rest).map (flag || Quoted.interpolates ·),
      s.skip ((Quoted.body? quote s.rest).getD s.rest).length) := by
  fun_induction closeDouble quote flag s with
  | case1 flag s h =>
    rw [atEnd_iff.mp h]
    rfl
  | case2 flag s h _ hescape ih =>
    obtain ⟨c, t, hrest⟩ := exists_rest_of_not_atEnd h
    obtain rfl : c = Byte.backslash := (peek_of_rest hrest).symm.trans hescape
    cases t with
    | nil =>
      rw [ih, skipEscape_of_last hrest, rest_skip_one hrest, hrest]
      rfl
    | cons d t =>
      rw [ih, skipEscape_of_cons hrest, rest_skip_two hrest, hrest, Quoted.body?_escape,
        Option.map_map, Option.getD_map, skip_skip, List.length_cons, List.length_cons,
        Nat.add_comm]
      rfl
  | case3 flag s h _ hescape hquote =>
    obtain ⟨c, t, hrest⟩ := exists_rest_of_not_atEnd h
    rw [peek_of_rest hrest] at hescape hquote
    rw [hrest, Quoted.body?_cons_of_ne hescape, if_pos hquote]
    cases flag <;> rfl
  | case4 flag s h _ hescape hquote hvar ih =>
    obtain ⟨c, t, hrest⟩ := exists_rest_of_not_atEnd h
    have hstarts := (startsVariable_iff hrest).mpr (.inl hvar)
    rw [peek_of_rest hrest] at hescape hquote
    exact closeDouble_step hrest hescape hquote (by simp [hstarts]) ih
  | case5 flag s h _ hescape hquote hvar hbrace ih =>
    obtain ⟨c, t, hrest⟩ := exists_rest_of_not_atEnd h
    have hstarts := (startsVariable_iff hrest).mpr (.inr hbrace)
    rw [peek_of_rest hrest] at hescape hquote
    exact closeDouble_step hrest hescape hquote (by simp [hstarts]) ih
  | case6 flag s h _ hescape hquote hvar hbrace ih =>
    obtain ⟨c, t, hrest⟩ := exists_rest_of_not_atEnd h
    have hstarts := mt (startsVariable_iff hrest).mp (not_or.mpr ⟨hvar, hbrace⟩)
    rw [peek_of_rest hrest] at hescape hquote
    exact closeDouble_step hrest hescape hquote (by simp [hstarts]) ih

theorem singleQuoted_eq (hstart : s.start = s.pos) (hrest : s.rest = Byte.singleQuote :: t)
    {l : Lexeme} (hl : Quoted.quoted? s.rest = some l) : s.singleQuoted = s.reads l := by
  have hprefix := Quoted.text_isPrefix hl
  rw [hrest, Quoted.quoted?, if_pos (by decide)] at hl
  rw [singleQuoted, closeSingle_eq, rest_skip_one hrest, skip_skip, Nat.add_comm]
  cases hbody : Quoted.body? Byte.singleQuote t with
  | none =>
    rw [hbody] at hl
    obtain rfl := Option.some.inj hl
    exact emitError_eq (l := ⟨.error, _⟩) hstart hprefix rfl rfl
  | some body =>
    rw [hbody] at hl
    obtain rfl := Option.some.inj hl
    exact emit_eq (l := ⟨.string, _⟩) hstart hprefix (by simp)

theorem doubleQuoted_eq (hstart : s.start = s.pos) (hrest : s.rest = c :: t)
    (hc : c = Byte.doubleQuote ∨ c = Byte.backtick)
    {l : Lexeme} (hl : Quoted.quoted? s.rest = some l) : s.doubleQuoted = s.reads l := by
  have hprefix := Quoted.text_isPrefix hl
  have hquote : Quoted.isQuote c = true := by rcases hc with rfl | rfl <;> rfl
  rw [hrest, Quoted.quoted?, if_pos hquote] at hl
  rw [doubleQuoted, closeDouble_eq, rest_skip_one hrest, skip_skip, Nat.add_comm,
    peek_of_rest hrest]
  cases hbody : Quoted.body? c t with
  | none =>
    rw [hbody] at hl
    obtain rfl := Option.some.inj hl
    have hfault : Lexeme.fault? ⟨.error, c :: t⟩ = some .openString := by
      rcases hc with rfl | rfl <;> rfl
    exact emitError_eq (l := ⟨.error, _⟩) hstart hprefix rfl hfault
  | some body =>
    rw [hbody] at hl
    obtain rfl := Option.some.inj hl
    have hkind : Quoted.kind c body =
        if (c == Byte.backtick || Quoted.interpolates body) then .interpolatedString
        else .string := by
      rcases hc with rfl | rfl <;> simp [Quoted.kind]
    rw [Option.map_some, hkind]
    cases hinterpolated : (c == Byte.backtick || Quoted.interpolates body) with
    | false => exact emit_eq (l := ⟨.string, _⟩) hstart hprefix (by simp)
    | true => exact emit_eq (l := ⟨.interpolatedString, _⟩) hstart hprefix (by simp)

/-! ## Heredocs -/

theorem skipBlanks_eq (s : Scanner) :
    s.skipBlanks = s.skip (s.rest.takeWhile Byte.isBlank).length :=
  s.skipWhile_peek Byte.isBlank

theorem skipLine_eq (s : Scanner) :
    s.skipLine = s.skip (s.rest.takeWhile (· != Byte.lf)).length :=
  s.skipWhile_peek (· != Byte.lf)

theorem slice_skipWhile (cls : UInt8 → Bool) (s : Scanner) :
    s.source.slice s.pos (s.skipWhile fun s => cls s.peek).pos = s.rest.takeWhile cls := by
  rw [skipWhile_peek]
  exact slice_pos (List.takeWhile_prefix cls)

theorem isNameStart_peek (s : Scanner) :
    Byte.isNameStart s.peek = Bytes.startsIn Byte.isNameStart s.rest := by
  rw [peek_eq, Bytes.class_headD Byte.isNameStart rfl]

theorem labelName?_nul (s : Scanner) : s.labelName? Byte.nul =
    if Bytes.startsIn Byte.isNameStart s.rest then
      some (s.rest.takeWhile Byte.isNameByte, s.skip (s.rest.takeWhile Byte.isNameByte).length)
    else none := by
  rw [labelName?, isNameStart_peek]
  simp only [slice_skipWhile]
  rw [skipWhile_peek]
  rfl

theorem labelName?_quote {quote : UInt8} (hquote : quote ≠ Byte.nul) (s : Scanner) :
    s.labelName? quote =
      if Bytes.startsIn Byte.isNameStart s.rest ∧
          [quote].isPrefixOf (s.rest.drop (s.rest.takeWhile Byte.isNameByte).length) then
        some (s.rest.takeWhile Byte.isNameByte,
          s.skip ((s.rest.takeWhile Byte.isNameByte).length + 1))
      else none := by
  have hclosed : (s.skip (s.rest.takeWhile Byte.isNameByte).length).peek = quote ↔
      [quote].isPrefixOf (s.rest.drop (s.rest.takeWhile Byte.isNameByte).length) = true := by
    rw [peek_eq, rest_skip, Bytes.headD_eq_iff hquote]
    cases s.rest.drop (s.rest.takeWhile Byte.isNameByte).length with
    | nil => simp
    | cons d u =>
      rw [List.head?_cons, Option.some_inj, List.isPrefixOf_iff_prefix, List.cons_prefix_cons,
        eq_comm]
      simp
  rw [labelName?, isNameStart_peek]
  simp only [slice_skipWhile]
  rw [skipWhile_peek, if_neg hquote, skip_skip, ite_and]
  simp only [hclosed]

theorem label?_eq (s : Scanner) : s.label? =
    (Heredoc.label? s.rest).map fun (written, label) => (label, s.skip written.length) := by
  rw [label?]
  cases hrest : s.rest with
  | nil =>
    rw [peek_of_rest_nil hrest, if_neg (by decide), labelName?_nul, hrest]
    rfl
  | cons c t =>
    rw [peek_of_rest hrest, Heredoc.label?, Heredoc.labelQuote]
    by_cases hquote : c = Byte.singleQuote ∨ c = Byte.doubleQuote
    · have hc : c ≠ Byte.nul := by rcases hquote with rfl | rfl <;> decide
      rw [if_pos hquote, if_pos hquote, labelName?_quote hc, rest_skip_one hrest,
        List.length_singleton, List.drop_one, List.tail_cons]
      rw [apply_ite (Option.map _), Option.map_none, Option.map_some, skip_skip]
      simp only [List.length_append, List.length_singleton, Nat.add_assoc]
    · rw [if_neg hquote, if_neg hquote, labelName?_nul, hrest]
      rw [apply_ite (Option.map _), Option.map_none, Option.map_some]
      refine if_congr ?_ ?_ rfl
      · simp
      · simp

theorem skip_carriageReturn (s : Scanner) :
    (if s.peek = Byte.cr then s.skip 1 else s) =
      s.skip (Heredoc.carriageReturn s.rest).length := by
  rw [Heredoc.carriageReturn, peek_eq]
  simp only [Bytes.headD_eq_iff (by decide : Byte.cr ≠ Byte.nul)]
  split <;> rfl

theorem peek_eq_lf_iff : s.peek = Byte.lf ↔ Bytes.startsWith Byte.lf s.rest = true := by
  rw [peek_eq, Bytes.startsWith, ← Bytes.class_headD (· == Byte.lf) rfl, beq_iff_eq]

theorem heredocLabel?_eq (hrest : s.rest = ascii "<<<" ++ t) : s.heredocLabel? =
    (Heredoc.header? s.rest).map fun header => (header.label, s.skip header.text.length) := by
  have hrest3 : (s.skip 3).rest = t := by rw [rest_skip, hrest]; rfl
  rw [heredocLabel?, skipBlanks_eq, label?_eq, hrest3, rest_skip, hrest3, hrest, Heredoc.header?,
    Bytes.after?_append]
  dsimp only [Option.bind_eq_bind, Option.bind_some]
  cases Heredoc.label? (t.drop (t.takeWhile Byte.isBlank).length) with
  | none => rfl
  | some label =>
    obtain ⟨written, label⟩ := label
    have hstop : (((s.skip 3).skip (t.takeWhile Byte.isBlank).length).skip written.length).rest =
        (t.drop (t.takeWhile Byte.isBlank).length).drop written.length := by
      rw [rest_skip, rest_skip, hrest3]
    dsimp only [Option.map_some]
    rw [skip_carriageReturn, hstop]
    simp only [peek_eq_lf_iff]
    rw [rest_skip _ (skip written.length _), hstop, Option.bind_some, apply_ite (Option.map _),
      Option.map_none, Option.map_some]
    simp only [skip_skip, List.length_append, Nat.add_assoc]
    rfl

/-- The marker that the scanner sees at the start of a line is the one that the line starts with. -/
theorem marker?_eq_ite (label : Bytes) (s : Scanner) : Heredoc.marker? label s.rest =
    if s.skipBlanks.ahead label.length = label ∧
        ¬ Byte.isNameByte (s.skipBlanks.peekAt label.length) then
      some (s.rest.takeWhile Byte.isBlank ++ label)
    else none := by
  rw [ahead_eq, peekAt_eq, Bytes.class_headD Byte.isNameByte rfl, skipBlanks_eq, rest_skip,
    Heredoc.marker?, Bytes.after?]
  simp only [Bytes.take_eq_iff, ← List.isPrefixOf_iff_prefix]
  by_cases hlabel : label.isPrefixOf (s.rest.drop (s.rest.takeWhile Byte.isBlank).length) = true
  · rw [if_pos hlabel]
    simp only [hlabel, true_and, ite_not]
  · rw [if_neg hlabel, if_neg fun h => hlabel h.1]

section Line

variable (hrest : s.rest = Byte.lf :: t)
include hrest

theorem skipBlanks_line :
    (s.skip 1).skipBlanks = s.skip (1 + (t.takeWhile Byte.isBlank).length) := by
  rw [skipBlanks_eq, rest_skip_one hrest, skip_skip]

theorem skipLine_line :
    (s.skip 1).skipBlanks.skipLine = s.skip (1 + (t.takeWhile (· != Byte.lf)).length) := by
  rw [skipLine_eq, skipBlanks_line hrest, ← skip_skip, rest_skip, rest_skip_one hrest, skip_skip,
    skip_skip, ← List.length_append, ← Heredoc.takeWhile_ne_lf]

theorem rest_skipLine_line :
    (s.skip 1).skipBlanks.skipLine.rest = t.drop (t.takeWhile (· != Byte.lf)).length := by
  rw [skipLine_line hrest, ← skip_skip, rest_skip, rest_skip_one hrest]

end Line

/-- The scanner goes to the end of the closing marker if there is one, otherwise to the end. It is
at the end of a line whenever it looks at the next one. -/
theorem closeHeredoc_eq (label : Bytes) (s : Scanner) :
    (∀ c t, s.rest = c :: t → c = Byte.lf) →
    s.closeHeredoc label = ((Heredoc.closing? label false s.rest).isSome,
      s.skip ((Heredoc.closing? label false s.rest).getD s.rest).length) := by
  fun_induction closeHeredoc label s with
  | case1 s h =>
    intro _
    rw [atEnd_iff.mp h]
    rfl
  | case2 s h _ line hmarker =>
    intro hlf
    obtain ⟨c, t, hrest⟩ := exists_rest_of_not_atEnd h
    obtain rfl := hlf c t hrest
    have hline : line = s.skip (1 + (t.takeWhile Byte.isBlank).length) := skipBlanks_line hrest
    have hfound := (s.skip 1).marker?_eq_ite label
    rw [if_pos hmarker, rest_skip_one hrest] at hfound
    rw [hrest, Heredoc.closing?_of_marker? hfound, hline, skip_skip, Option.getD_some,
      List.length_cons, List.length_append, Nat.add_comm 1, Nat.add_right_comm]
    rfl
  | case3 s h _ line hmarker ih =>
    intro hlf
    obtain ⟨c, t, hrest⟩ := exists_rest_of_not_atEnd h
    obtain rfl := hlf c t hrest
    have hnext : line.skipLine.rest = t.drop (t.takeWhile (· != Byte.lf)).length :=
      rest_skipLine_line hrest
    have hends : ∀ c u, line.skipLine.rest = c :: u → c = Byte.lf := by
      intro c u hu
      have hstop := Bytes.startsIn_drop_takeWhile (· != Byte.lf) t
      rw [← hnext, hu] at hstop
      simpa using hstop
    have hnone := (s.skip 1).marker?_eq_ite label
    rw [if_neg hmarker, rest_skip_one hrest] at hnone
    have hsplit : Byte.lf :: (t.takeWhile (· != Byte.lf) ++
        t.drop (t.takeWhile (· != Byte.lf)).length) = Byte.lf :: t :=
      congrArg _ (List.prefix_iff_eq_append.mp (List.takeWhile_prefix _))
    rw [ih hends, hnext, skipLine_line hrest, hrest, Heredoc.closing?_of_none hnone,
      Option.isSome_map, ← hsplit, Option.getD_map, skip_skip, List.length_cons,
      List.length_append, Nat.add_comm 1, Nat.add_right_comm]

theorem heredoc_eq (hstart : s.start = s.pos) (hrest : s.rest = ascii "<<<" ++ t) :
    s.heredoc = s.reads ((Heredoc.heredoc? s.rest).getD
      (Symbol.symbol Byte.less (Byte.less :: Byte.less :: t))) := by
  rw [heredoc, heredocLabel?_eq hrest]
  cases hheader : Heredoc.header? s.rest with
  | none =>
    rw [Heredoc.heredoc?, hheader]
    exact operator_eq hstart hrest
  | some header =>
    obtain ⟨hisHeader, after, hafter⟩ := Heredoc.isHeader_of_header? hheader
    have hbody : (s.skip header.text.length).rest = Byte.lf :: after := by
      rw [rest_skip, ← hafter, List.append_assoc, List.drop_left]
      rfl
    have hlf : ∀ c u, (s.skip header.text.length).rest = c :: u → c = Byte.lf := by
      intro c u hu
      rw [hbody] at hu
      exact (List.cons.inj hu).1.symm
    obtain ⟨l, hl⟩ : ∃ l, Heredoc.heredoc? s.rest = some l := by
      rw [Heredoc.heredoc?, hheader]
      exact ⟨_, rfl⟩
    have hprefix := Heredoc.text_isPrefix hl
    rw [hl, Option.getD_some]
    rw [Heredoc.heredoc?, hheader, Option.map_some, ← rest_skip] at hl
    rw [Option.map_some]
    dsimp only
    rw [closeHeredoc_eq _ _ hlf, skip_skip]
    cases hclosing : Heredoc.closing? header.label false (s.skip header.text.length).rest with
    | none =>
      rw [hclosing] at hl
      obtain rfl := Option.some.inj hl
      have hlength : header.text.length + (s.skip header.text.length).rest.length =
          s.rest.length := by
        rw [hbody, ← hafter]
        simp
      have hfault : Lexeme.fault? ⟨.error, s.rest⟩ = some .openHeredoc := by
        rw [hrest]
        rfl
      rw [Option.getD_none, hlength]
      exact emitError_eq (l := ⟨.error, _⟩) hstart hprefix rfl hfault
    | some body =>
      rw [hclosing] at hl
      obtain rfl := Option.some.inj hl
      rw [Option.getD_some, ← List.length_append]
      exact emit_eq (l := ⟨.heredoc, _⟩) hstart hprefix (by simp)

end Scanner

end TextDomain
