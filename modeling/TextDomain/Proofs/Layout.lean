import Mathlib.Algebra.Group.Nat.Defs
import Mathlib.Data.List.Induction
import TextDomain.Proofs.Lossless

/-!
# How tokens lie in a content

The content of a source is made up of the lexemes of its tokens and of the gaps between them
(`Source.LaidOut`). A gap is empty in markup; in code it is made of white space and comments. These
forms are given without reference to reading: `Trivia.Fits` says what a piece looks like before the
text that follows it, and a piece is skipped exactly if it looks like that
(`Trivia.first?_eq_some_iff`).

A block comment without an end can only come last (`Trivia.AllFit.ends_in_comment`), which makes it
the gap before the end of the content, and that is when it is reported.
-/

namespace TextDomain

/-! ## White space and comments -/

/-- A line comment before `rest`: `//`, or `#` with no bracket after it, and all up to the first
line feed or close tag, or to the end. -/
def IsLineComment (text rest : Bytes) : Prop :=
  ∃ lead body, text = lead ++ body ∧
    (lead = ascii "//" ∨ lead = ascii "#" ∧ (body ++ rest).head? ≠ some Byte.openBracket) ∧
    Byte.lf ∉ body ∧ ¬ ascii "?>" <:+: body ∧
    (rest = [] ∨ rest.head? = some Byte.lf ∨ ascii "?>" <+: rest)

/-- A block comment: `/*` and all up to and including the first `*/` after it. -/
def IsBlockComment (text : Bytes) : Prop :=
  ∃ body, text = ascii "/*" ++ body ++ ascii "*/" ∧ ¬ ascii "*/" <:+: body ++ [Byte.star]

/-- A block comment without an end. -/
def IsOpenComment (text : Bytes) : Prop :=
  ∃ body, text = ascii "/*" ++ body ∧ ¬ ascii "*/" <:+: body

namespace Trivia

/-- The form of a piece that is skipped before `rest`. -/
def Fits (rest : Bytes) : Trivia → Prop
  | space c => c ∈ [Byte.space, Byte.tab, Byte.cr, Byte.lf, Byte.ff, Byte.vt]
  | lineComment text => IsLineComment text rest
  | blockComment text => IsBlockComment text
  | unclosed text => IsOpenComment text ∧ rest = []

/-- Every one of some pieces has its form, the last of them before `rest`. -/
def AllFit (rest : Bytes) : List Trivia → Prop
  | [] => True
  | piece :: pieces => piece.Fits (join pieces ++ rest) ∧ AllFit rest pieces

end Trivia

/-- Before `rest`, `gap` is made of white space and whole comments. -/
def Skipped (gap rest : Bytes) : Prop :=
  ∃ pieces, gap = Trivia.join pieces ∧ Trivia.AllFit rest pieces ∧ Trivia.unclosed? pieces = none

/-- White space and whole comments, and then a comment that the text ends in. -/
def Unfinished (gap : Bytes) : Prop :=
  ∃ before comment, gap = before ++ comment ∧ Skipped before comment ∧ IsOpenComment comment

theorem isPrefix_pair_iff {a b c : UInt8} {s : Bytes} :
    [a, b] <+: c :: s ↔ c = a ∧ s.head? = some b := by
  cases s with
  | nil => simp
  | cons d s => simp [eq_comm]

/-! ## One piece -/

namespace Trivia

theorem mem_isSpace_iff {c : UInt8} : Byte.isSpace c = true ↔
    c ∈ [Byte.space, Byte.tab, Byte.cr, Byte.lf, Byte.ff, Byte.vt] := by
  simp [Byte.isSpace, or_assoc]

theorem lineBody_eq_nil_iff {rest : Bytes} : lineBody rest = [] ↔
    rest = [] ∨ rest.head? = some Byte.lf ∨ ascii "?>" <+: rest := by
  cases rest with
  | nil => simp [lineBody]
  | cons c s =>
    have htag : ascii "?>" <+: c :: s ↔ c = Byte.question ∧ s.head? = some Byte.greater :=
      isPrefix_pair_iff
    rw [htag, lineBody]
    split <;> simp_all

/-- A line comment ends where nothing more of it can be read. -/
theorem lineBody_append_eq_iff {body rest : Bytes} : lineBody (body ++ rest) = body ↔
    Byte.lf ∉ body ∧ ¬ ascii "?>" <:+: body ∧
      (rest = [] ∨ rest.head? = some Byte.lf ∨ ascii "?>" <+: rest) := by
  induction body with
  | nil => simp [lineBody_eq_nil_iff, ascii]
  | cons c body ih =>
    have htag : ascii "?>" <+: c :: body ↔ c = Byte.question ∧ body.head? = some Byte.greater :=
      isPrefix_pair_iff
    rw [List.infix_cons_iff, htag, List.cons_append, lineBody, List.mem_cons]
    constructor
    · intro h
      split at h
      · cases h
      · rename_i hstop
        obtain ⟨hlf, hinfix, hrest⟩ := ih.mp (List.cons.inj h).2
        refine ⟨fun hmem => ?_, fun hmem => ?_, hrest⟩
        · exact hmem.elim (fun hc => hstop (Or.inl hc.symm)) hlf
        · refine hmem.elim (fun hc => hstop (Or.inr ⟨hc.1, ?_⟩)) hinfix
          rw [List.head?_append, hc.2, Option.some_or]
    · rintro ⟨hlf, hinfix, hrest⟩
      have hbody := ih.mpr ⟨fun h => hlf (Or.inr h), fun h => hinfix (Or.inr h), hrest⟩
      rw [if_neg, hbody]
      rintro (hc | ⟨hc, hhead⟩)
      · exact hlf (Or.inl hc.symm)
      · rw [List.head?_append] at hhead
        cases hbody : body.head? with
        | some d =>
          rw [hbody, Option.some_or] at hhead
          exact hinfix (Or.inl ⟨hc, hbody.trans hhead⟩)
        | none =>
          rw [hbody, Option.none_or] at hhead
          rcases hrest with rfl | hlf | ⟨t, rfl⟩
          · cases hhead
          · rw [hlf] at hhead
            cases hhead
          · cases hhead

theorem blockBody?_append_slash {body : Bytes} (h : ¬ ascii "*/" <:+: body ++ [Byte.star])
    (rest : Bytes) : blockBody? (body ++ ascii "*/" ++ rest) = some (body ++ ascii "*/") := by
  induction body with
  | nil => rfl
  | cons c body ih =>
    have hstop : ascii "*/" <+: c :: (body ++ [Byte.star]) ↔
        c = Byte.star ∧ (body ++ [Byte.star]).head? = some Byte.slash := isPrefix_pair_iff
    rw [List.cons_append, List.infix_cons_iff, hstop, not_or] at h
    rw [List.cons_append, List.cons_append, blockBody?, if_neg, ih h.2, Option.map_some]
    rintro ⟨hc, hhead⟩
    refine h.1 ⟨hc, ?_⟩
    cases body with
    | nil => cases hhead
    | cons d body => exact hhead

theorem exists_body_of_blockBody? : ∀ {s text : Bytes}, blockBody? s = some text →
    ∃ body, text = body ++ ascii "*/" ∧ ¬ ascii "*/" <:+: body ++ [Byte.star]
  | [], _, h => by cases h
  | c :: s, text, h => by
    rw [blockBody?] at h
    split at h
    · exact ⟨[], (Option.some.inj h).symm, by decide⟩
    · rename_i hgoes
      obtain ⟨inner, hinner, rfl⟩ := Option.map_eq_some_iff.mp h
      obtain ⟨body, rfl, hbody⟩ := exists_body_of_blockBody? hinner
      refine ⟨c :: body, rfl, ?_⟩
      have hstop : ascii "*/" <+: c :: (body ++ [Byte.star]) ↔
          c = Byte.star ∧ (body ++ [Byte.star]).head? = some Byte.slash := isPrefix_pair_iff
      rw [List.cons_append, List.infix_cons_iff, hstop, not_or]
      refine ⟨fun hhead => hgoes ⟨hhead.1, ?_⟩, hbody⟩
      obtain ⟨rest, rfl⟩ := blockBody?_isPrefix hinner
      cases body with
      | nil => cases hhead.2
      | cons d body => exact hhead.2

theorem blockBody?_eq_none_iff {s : Bytes} : blockBody? s = none ↔ ¬ ascii "*/" <:+: s := by
  induction s with
  | nil => simp [blockBody?, ascii]
  | cons c s ih =>
    have hstop : ascii "*/" <+: c :: s ↔ c = Byte.star ∧ s.head? = some Byte.slash :=
      isPrefix_pair_iff
    rw [List.infix_cons_iff, hstop, blockBody?, not_or]
    split <;> simp_all

theorem first?_space {c : UInt8} (hc : Byte.isSpace c = true) (rest : Bytes) :
    first? (c :: rest) = some (space c) := by
  rw [first?, if_pos hc]

theorem first?_slash (s : Bytes) : first? (Byte.slash :: s) = slashComment? s := by
  rw [first?, if_neg (by decide), if_neg (by decide), if_pos rfl]

theorem first?_lineComment {text rest : Bytes} (h : IsLineComment text rest) :
    first? (text ++ rest) = some (lineComment text) := by
  obtain ⟨lead, body, rfl, hlead, hend⟩ := h
  have hbody := lineBody_append_eq_iff.mpr hend
  rcases hlead with rfl | ⟨rfl, hbracket⟩
  · change first? (Byte.slash :: Byte.slash :: (body ++ rest)) = _
    rw [first?_slash, slashComment?, if_pos rfl, hbody]
    rfl
  · change first? (Byte.hash :: (body ++ rest)) = _
    rw [first?, if_neg (by decide), if_pos rfl, if_neg hbracket, hbody]
    rfl

theorem first?_blockComment {text : Bytes} (h : IsBlockComment text) (rest : Bytes) :
    first? (text ++ rest) = some (blockComment text) := by
  obtain ⟨body, rfl, hbody⟩ := h
  change first? (Byte.slash :: Byte.star :: (body ++ ascii "*/" ++ rest)) = _
  rw [first?_slash, slashComment?, if_neg (by decide), if_pos rfl,
    blockBody?_append_slash hbody rest]
  rfl

theorem first?_openComment {text : Bytes} (h : IsOpenComment text) :
    first? text = some (unclosed text) := by
  obtain ⟨body, rfl, hbody⟩ := h
  change first? (Byte.slash :: Byte.star :: body) = _
  rw [first?_slash, slashComment?, if_neg (by decide), if_pos rfl,
    blockBody?_eq_none_iff.mpr hbody]
  rfl

theorem fits_of_slashComment? {s : Bytes} {piece : Trivia} (h : slashComment? s = some piece) :
    ∃ rest, Byte.slash :: s = piece.text ++ rest ∧ piece.Fits rest := by
  unfold slashComment? at h
  split at h
  · cases h
  · rename_i c s
    split at h
    · rename_i hc
      obtain rfl := Option.some.inj h
      obtain ⟨rest, hrest⟩ := lineBody_isPrefix s
      refine ⟨rest, ?_, ascii "//", lineBody s, rfl, Or.inl rfl,
        lineBody_append_eq_iff.mp (by rw [hrest])⟩
      rw [hc]
      exact congrArg (Byte.slash :: Byte.slash :: ·) hrest.symm
    · split at h
      · rename_i hc
        split at h <;> obtain rfl := Option.some.inj h
        · rename_i body hbody
          obtain ⟨inner, rfl, hinner⟩ := exists_body_of_blockBody? hbody
          obtain ⟨rest, rfl⟩ := blockBody?_isPrefix hbody
          exact ⟨rest, by rw [hc]; rfl, inner, rfl, hinner⟩
        · rename_i hbody
          exact ⟨[], by simp [hc, text], ⟨s, rfl, blockBody?_eq_none_iff.mp hbody⟩, rfl⟩
      · cases h

theorem fits_of_first? {s : Bytes} {piece : Trivia} (h : first? s = some piece) :
    ∃ rest, s = piece.text ++ rest ∧ piece.Fits rest := by
  unfold first? at h
  split at h
  · cases h
  · rename_i c s
    split at h
    · rename_i hc
      obtain rfl := Option.some.inj h
      exact ⟨s, rfl, mem_isSpace_iff.mp hc⟩
    · split at h
      · rename_i hc
        split at h
        · cases h
        · rename_i hbracket
          obtain rfl := Option.some.inj h
          obtain ⟨rest, hrest⟩ := lineBody_isPrefix s
          refine ⟨rest, by rw [hc]; exact congrArg _ hrest.symm, ascii "#", lineBody s, rfl,
            Or.inr ⟨rfl, ?_⟩, lineBody_append_eq_iff.mp (by rw [hrest])⟩
          rwa [hrest]
      · split at h
        · rename_i hc
          rw [hc]
          exact fits_of_slashComment? h
        · cases h

/-- A piece is skipped exactly if it has its form before what follows it. -/
theorem first?_eq_some_iff {s : Bytes} {piece : Trivia} :
    first? s = some piece ↔ ∃ rest, s = piece.text ++ rest ∧ piece.Fits rest := by
  refine ⟨fits_of_first?, ?_⟩
  rintro ⟨rest, rfl, hfits⟩
  cases piece with
  | space c => exact first?_space (mem_isSpace_iff.mpr hfits) rest
  | lineComment text => exact first?_lineComment hfits
  | blockComment text => exact first?_blockComment hfits rest
  | unclosed text =>
    obtain ⟨hopen, rfl⟩ := hfits
    rw [List.append_nil]
    exact first?_openComment hopen

/-! ## Runs of pieces -/

theorem Fits.text_ne_nil {rest : Bytes} {piece : Trivia} (h : piece.Fits rest) :
    piece.text ≠ [] :=
  text_ne_nil_of_first? (first?_eq_some_iff.mpr ⟨rest, rfl, h⟩)

theorem AllFit.eq_nil_of_join {rest : Bytes} : ∀ {pieces : List Trivia}, AllFit rest pieces →
    join pieces = [] → pieces = []
  | [], _, _ => rfl
  | _ :: _, h, hjoin => absurd (List.append_eq_nil_iff.mp hjoin).1 h.1.text_ne_nil

/-- What is skipped at the start of a text has the form of skipped pieces. -/
theorem allFit_run (s : Bytes) : ∃ rest, s = join (run s) ++ rest ∧ AllFit rest (run s) := by
  induction s using run.induct with
  | case1 s h =>
    rw [run_of_none h]
    exact ⟨s, rfl, trivial⟩
  | case2 s piece h _ ih =>
    obtain ⟨after, rfl, hfits⟩ := first?_eq_some_iff.mp h
    rw [List.drop_left] at ih
    obtain ⟨rest, hrest, hall⟩ := ih
    rw [run_of_some h, List.drop_left, join_cons]
    refine ⟨rest, ?_, ?_, hall⟩
    · rw [List.append_assoc, ← hrest]
    · rwa [← hrest]

/-- Pieces that have their form before a text are skipped before it. -/
theorem run_join_append {rest : Bytes} : ∀ {pieces : List Trivia}, AllFit rest pieces →
    run (join pieces ++ rest) = pieces ++ run rest
  | [], _ => rfl
  | piece :: pieces, h => by
    rw [join_cons, List.append_assoc, run_of_some (first?_eq_some_iff.mpr ⟨_, rfl, h.1⟩),
      List.drop_left, run_join_append h.2]
    rfl

theorem eq_unclosed_or_whole (piece : Trivia) : (∃ text, piece = unclosed text) ∨
    ∀ pieces, unclosed? (piece :: pieces) = unclosed? pieces := by
  cases piece with
  | unclosed text => exact Or.inl ⟨text, rfl⟩
  | _ => exact Or.inr fun _ => rfl

/-- A comment without an end is the last of the pieces, and of the text. -/
theorem AllFit.ends_in_comment {rest comment : Bytes} : ∀ {pieces : List Trivia},
    AllFit rest pieces → unclosed? pieces = some comment → rest = [] ∧ IsOpenComment comment ∧
      ∃ before, join pieces = before ++ comment ∧ Skipped before comment
  | [], _, hsome => by cases hsome
  | piece :: pieces, ⟨hfits, hall⟩, hsome => by
    rcases eq_unclosed_or_whole piece with ⟨text, rfl⟩ | hwhole
    · obtain ⟨hopen, hend⟩ := hfits
      obtain ⟨hjoin, rfl⟩ := List.append_eq_nil_iff.mp hend
      obtain rfl := hall.eq_nil_of_join hjoin
      obtain rfl : text = comment := Option.some.inj hsome
      exact ⟨rfl, hopen, [], List.append_nil text, [], rfl, trivial, rfl⟩
    · rw [hwhole] at hsome
      obtain ⟨rfl, hopen, before, hjoin, whole, rfl, hbefore, hnone⟩ := hall.ends_in_comment hsome
      refine ⟨rfl, hopen, piece.text ++ join whole, ?_, piece :: whole, rfl, ⟨?_, hbefore⟩, ?_⟩
      · rw [join_cons, hjoin, List.append_assoc]
      · rwa [List.append_nil, hjoin] at hfits
      · rw [hwhole, hnone]

theorem AllFit.unfinished {rest comment : Bytes} {pieces : List Trivia} (h : AllFit rest pieces)
    (hsome : unclosed? pieces = some comment) : rest = [] ∧ Unfinished (join pieces) := by
  obtain ⟨hrest, hopen, before, hjoin, hbefore⟩ := h.ends_in_comment hsome
  exact ⟨hrest, before, comment, hjoin, hbefore, hopen⟩

/-- A text that ends in a comment without an end is skipped with that comment. -/
theorem exists_unclosed_of_unfinished {gap : Bytes} (h : Unfinished gap) :
    ∃ comment, unclosed? (run gap) = some comment := by
  obtain ⟨_, comment, rfl, ⟨pieces, rfl, hall, hnone⟩, hopen⟩ := h
  have hcomment : run comment = [unclosed comment] := by
    rw [run_of_some (first?_openComment hopen), text, List.drop_length]
    rw [run_of_none rfl]
  rw [run_join_append hall, hcomment]
  refine ⟨comment, ?_⟩
  rw [unclosed?] at hnone
  rw [unclosed?, List.findSome?_append, hnone]
  rfl

end Trivia

/-! ## One reading -/

theorem not_unfinished_nil : ¬ Unfinished [] := by
  rintro ⟨before, comment, hnil, -, body, rfl, -⟩
  simp [ascii] at hnil

/-- After a gap that goes to the end of the text comes the end. -/
theorem lexeme_read_of_drop {mode : Mode} {s : Bytes} (h : s.drop (mode.read s).gapSize = []) :
    (mode.read s).lexeme = ⟨.eof, []⟩ := by
  cases mode with
  | markup =>
    obtain rfl : s = [] := h
    rfl
  | code =>
    change codeLexeme (s.drop (Mode.code.read s).gapSize) = _
    rw [h]
    rfl

/-- What a reading skips has the form of skipped pieces, before the token and what follows it. -/
theorem allFit_gap_read (mode : Mode) (s : Bytes) :
    Trivia.AllFit (s.drop (mode.read s).gapSize) (mode.read s).gap := by
  cases mode with
  | markup => trivial
  | code =>
    obtain ⟨rest, hrest, hall⟩ := Trivia.allFit_run s
    have hdrop : s.drop (Trivia.join (Trivia.run s)).length = rest := by
      nth_rewrite 2 [hrest]
      exact List.drop_left
    exact hdrop ▸ hall

theorem skipped_gap_read (mode : Mode) (s : Bytes) :
    Skipped (Trivia.join (mode.read s).gap) (s.drop (mode.read s).gapSize) ∨
      (mode.read s).lexeme.kind = .eof ∧ Unfinished (Trivia.join (mode.read s).gap) := by
  have hall := allFit_gap_read mode s
  cases hopen : Trivia.unclosed? (mode.read s).gap with
  | none => exact Or.inl ⟨_, rfl, hall, hopen⟩
  | some comment =>
    obtain ⟨hend, hunfinished⟩ := hall.unfinished hopen
    exact Or.inr ⟨congrArg Lexeme.kind (lexeme_read_of_drop hend), hunfinished⟩

theorem unclosed?_gap_of_ne {mode : Mode} {s : Bytes} (h : (mode.read s).lexeme.kind ≠ .eof) :
    Trivia.unclosed? (mode.read s).gap = none := by
  cases hopen : Trivia.unclosed? (mode.read s).gap with
  | none => rfl
  | some comment =>
    obtain ⟨hend, -⟩ := (allFit_gap_read mode s).unfinished hopen
    exact absurd (congrArg Lexeme.kind (lexeme_read_of_drop hend)) h

/-- The gap before the end holds a comment without an end exactly if it is unfinished. -/
theorem isSome_unclosed?_of_eof {mode : Mode} {s : Bytes} (h : (mode.read s).lexeme.kind = .eof) :
    (Trivia.unclosed? (mode.read s).gap).isSome ↔ Unfinished (Trivia.join (mode.read s).gap) := by
  refine ⟨fun hsome => ?_, fun hunfinished => ?_⟩
  · obtain ⟨comment, hopen⟩ := Option.isSome_iff_exists.mp hsome
    exact ((allFit_gap_read mode s).unfinished hopen).2
  · cases mode with
    | markup => exact absurd hunfinished not_unfinished_nil
    | code =>
      have hgap : Trivia.join (Trivia.run s) = s :=
        (Trivia.join_run_isPrefix s).eq_of_length_le
          (List.drop_eq_nil_iff.mp (drop_gapSize_of_eof h))
      change Unfinished (Trivia.join (Trivia.run s)) at hunfinished
      rw [hgap] at hunfinished
      exact Option.isSome_iff_exists.mpr (Trivia.exists_unclosed_of_unfinished hunfinished)

/-! ## Steps -/

namespace Cursor

/-- What every step keeps holds wherever a step is taken. -/
theorem exists_of_getElem?_steps {P : List Step → Cursor → Prop}
    (hnext : ∀ done c, P done c → P (done ++ [c.step]) c.next) {done : List Step} {c : Cursor}
    (h : P done c) {i : Nat} {step : Step} (hi : c.steps[i]? = some step) :
    ∃ c', P (done ++ c.steps.take i) c' ∧ c'.step = step ∧ c'.steps = c.steps.drop i := by
  induction c using next_induction generalizing done i with
  | last c heof =>
    have hsteps := steps_of_eof heof
    rw [hsteps] at hi ⊢
    cases i with
    | zero => exact ⟨c, by simpa using h, Option.some.inj hi, hsteps⟩
    | succ i => cases hi
  | more c heof ih =>
    have hsteps := steps_of_ne heof
    rw [hsteps] at hi ⊢
    cases i with
    | zero => exact ⟨c, by simpa using h, Option.some.inj hi, hsteps⟩
    | succ i =>
      obtain ⟨c', hc', hstep, hdrop⟩ := ih (hnext done c h) hi
      exact ⟨c', by simpa using hc', hstep, hdrop⟩

theorem getElem?_steps_zero (c : Cursor) : c.steps[0]? = some c.step := by
  by_cases heof : c.step.lexeme.kind = .eof
  · rw [steps_of_eof heof]
    rfl
  · rw [steps_of_ne heof]
    rfl

theorem exists_last_step (c : Cursor) : ∃ before last, c.steps = before ++ [last] ∧
    last.lexeme = ⟨.eof, []⟩ ∧ ∀ step ∈ before, step.lexeme.kind ≠ .eof := by
  induction c using next_induction with
  | last c heof =>
    exact ⟨[], c.step, steps_of_eof heof, lexeme_read_of_drop (drop_gapSize_of_eof heof), by simp⟩
  | more c heof ih =>
    obtain ⟨before, last, hsteps, hlast, hbefore⟩ := ih
    refine ⟨c.step :: before, last, by rw [steps_of_ne heof, hsteps]; rfl, hlast, ?_⟩
    intro step hstep
    rcases List.mem_cons.mp hstep with rfl | hstep
    · exact heof
    · exact hbefore step hstep

/-- A step skips a comment without an end exactly if the last gap is unfinished. -/
theorem exists_unclosed_iff (c : Cursor) :
    (∃ step ∈ c.steps, (Trivia.unclosed? step.reading.gap).isSome) ↔
      ∃ last, c.steps.getLast? = some last ∧ Unfinished (Trivia.join last.reading.gap) := by
  induction c using next_induction with
  | last c heof =>
    have hlast : (Trivia.unclosed? c.step.reading.gap).isSome ↔
        Unfinished (Trivia.join c.step.reading.gap) := isSome_unclosed?_of_eof heof
    simp [steps_of_eof heof, hlast]
  | more c heof ih =>
    have hnone : Trivia.unclosed? c.step.reading.gap = none := unclosed?_gap_of_ne heof
    obtain ⟨before, last, hsteps, -⟩ := c.next.exists_last_step
    have hlast : (c.step :: c.next.steps).getLast? = c.next.steps.getLast? := by
      rw [hsteps, ← List.cons_append, List.getLast?_concat, List.getLast?_concat]
    rw [steps_of_ne heof, hlast, ← ih]
    simp [hnone]

theorem mode_of_gap_ne {c : Cursor} (h : Trivia.join c.step.reading.gap ≠ []) :
    c.mode = .code := by
  obtain ⟨mode, offset, rest⟩ := c
  cases mode with
  | markup => exact absurd rfl h
  | code => rfl

end Cursor

/-- A comment without an end is what the code `L002` stands for. -/
theorem Step.exists_error?_iff (step : Step) :
    (∃ e, step.error? = some e ∧ e.fault.code = ascii "L002") ↔
      (Trivia.unclosed? step.reading.gap).isSome := by
  have hcode : ∀ fault : Fault, fault.code = ascii "L002" ↔ fault = .openComment := by
    intro fault
    cases fault <;> decide
  have hlexeme : step.reading.lexeme.fault? ≠ some .openComment := by
    unfold Lexeme.fault?
    split
    · simp
    · split <;> simp
  simp only [hcode, error?, Reading.fault?]
  cases Trivia.unclosed? step.reading.gap with
  | some comment => simp
  | none => simp [hlexeme]

/-! ## Tokens and gaps -/

/-- The offset after a token. -/
def Token.stop (t : Token) : Nat :=
  t.offset + t.text.length

@[simp] theorem Step.stop_token (step : Step) : step.token.stop = step.stop :=
  Nat.add_assoc _ _ _

theorem Step.stop_sub_length (step : Step) :
    step.stop - step.lexeme.text.length = step.start := by
  rw [← stop_token]
  exact Nat.add_sub_cancel _ _

theorem Cursor.pairwise_tokens (c : Cursor) :
    (c.steps.map Step.token).Pairwise fun a b => a.offset < b.offset ∧ a.stop ≤ b.offset := by
  induction c using next_induction with
  | last c heof =>
    rw [steps_of_eof heof]
    exact List.pairwise_singleton _ _
  | more c heof ih =>
    rw [steps_of_ne heof]
    refine List.pairwise_cons.mpr ⟨fun t ht => ?_, ih⟩
    obtain ⟨later, hlater, rfl⟩ := List.mem_map.mp ht
    have hstop : c.step.token.stop ≤ later.token.offset := by
      rw [Step.stop_token]
      exact Nat.le_trans (offset_le_of_mem_steps hlater) (Nat.le_add_right _ _)
    have htext : 0 < c.step.token.text.length :=
      List.length_pos_iff.mpr (text_ne_nil_of_read heof)
    exact ⟨Nat.lt_of_lt_of_le (Nat.lt_add_of_pos_right htext) hstop, hstop⟩

/-- These tokens lead into code: they have an open tag with no close tag after it. -/
def Opened (tokens : List Token) : Prop :=
  ∃ before tag inside, tokens = before ++ tag :: inside ∧ tag.kind = .openTag ∧
    ∀ t ∈ inside, t.kind ≠ .closeTag

theorem Kind.modeAfter_of_ne {kind : Kind} (hopen : kind ≠ .openTag) (hclose : kind ≠ .closeTag)
    (mode : Mode) : kind.modeAfter mode = mode := by
  cases kind with
  | openTag => exact absurd rfl hopen
  | closeTag => exact absurd rfl hclose
  | _ => rfl

theorem opened_of_modeAfter {tokens : List Token}
    (h : tokens.foldl (fun mode t => t.kind.modeAfter mode) .markup = .code) : Opened tokens := by
  induction tokens using List.reverseRecOn with
  | nil => cases h
  | append_singleton tokens t ih =>
    rw [List.foldl_append, List.foldl_cons, List.foldl_nil] at h
    by_cases hopen : t.kind = .openTag
    · exact ⟨tokens, t, [], rfl, hopen, by simp⟩
    · have hclose : t.kind ≠ .closeTag := by
        intro hclose
        rw [hclose] at h
        cases h
      rw [Kind.modeAfter_of_ne hopen hclose] at h
      obtain ⟨before, tag, inside, rfl, htag, hinside⟩ := ih h
      refine ⟨before, tag, inside ++ [t], by simp, htag, ?_⟩
      intro u hu
      rcases List.mem_append.mp hu with hu | hu
      · exact hinside u hu
      · rwa [List.mem_singleton.mp hu]

theorem Kind.modeAfter_code {kind : Kind} (h : kind ≠ .closeTag) :
    kind.modeAfter .code = .code := by
  cases kind with
  | closeTag => exact absurd rfl h
  | _ => rfl

theorem modeAfter_of_opened {tokens : List Token} (h : Opened tokens) :
    tokens.foldl (fun mode t => t.kind.modeAfter mode) .markup = .code := by
  obtain ⟨before, tag, inside, rfl, htag, hinside⟩ := h
  rw [List.foldl_append, List.foldl_cons, htag]
  induction inside with
  | nil => rfl
  | cons t inside ih =>
    rw [List.foldl_cons, Kind.modeAfter, Kind.modeAfter_code (hinside t List.mem_cons_self)]
    exact ih fun u hu => hinside u (List.mem_cons_of_mem _ hu)

namespace Source

variable {s : Source}

/-- The text before each of some tokens, from `start` or the end of the token before on. -/
def gapsFrom (s : Source) (start : Nat) : List Token → List Bytes
  | [] => []
  | t :: tokens => s.slice start t.offset :: s.gapsFrom t.stop tokens

/-- The text before each token, back to the token before it. -/
def gaps (s : Source) : List Bytes :=
  s.gapsFrom 0 s.tokens

/-- How the tokens of a source lie in its content. -/
structure LaidOut (s : Source) : Prop where
  /-- The last token is the end, which is empty, and no other is one. -/
  ends : ∃ before last, s.tokens = before ++ [last] ∧ last.kind = .eof ∧ last.text = [] ∧
    ∀ t ∈ before, t.kind ≠ .eof
  /-- Every lexeme is the slice of the content at its token's place, which its span gives. -/
  slices : ∀ t ∈ s.tokens, t.stop ≤ s.content.length ∧ s.slice t.offset t.stop = t.text ∧
    (t.span s.name s.lineStarts).start.offset.toNat = t.offset ∧
    (t.span s.name s.lineStarts).start.length.toNat = t.text.length
  ordered : s.tokens.Pairwise fun a b => a.offset < b.offset ∧ a.stop ≤ b.offset
  /-- Gaps and lexemes in turn are the content. -/
  partition : s.gaps.length = s.tokens.length ∧
    s.content = (s.gaps.zip s.tokens).flatMap fun (gap, t) => gap ++ t.text
  /-- Outside of code there is nothing in a gap. -/
  opened : ∀ (i : Nat) (gap : Bytes), s.gaps[i]? = some gap → gap ≠ [] → Opened (s.tokens.take i)
  /-- A gap is made of white space and whole comments. Only before the end a comment may be open. -/
  skipped : ∀ (i : Nat) (gap : Bytes) (t : Token), s.gaps[i]? = some gap → s.tokens[i]? = some t →
    Skipped gap (s.content.drop t.offset) ∨ t.kind = .eof ∧ Unfinished gap
  /-- An open comment is reported, and only then. -/
  unfinished : (∃ e ∈ s.errors, e.fault.code = ascii "L002") ↔
    ∃ gap, s.gaps.getLast? = some gap ∧ Unfinished gap

/-- The cursor `c` stands in the content after the steps `done`. -/
structure Reaches (s : Source) (done : List Step) (c : Cursor) : Prop where
  drop_offset : s.content.drop c.offset = c.rest
  offset_le : c.offset ≤ s.content.length
  mode_eq : c.mode = (done.map Step.token).foldl (fun mode t => t.kind.modeAfter mode) .markup

namespace Reaches

variable {done : List Step} {c : Cursor}

theorem next (h : s.Reaches done c) : s.Reaches (done ++ [c.step]) c.next where
  drop_offset := Cursor.drop_offset_next h.drop_offset
  offset_le := by
    have hsize := (text_read_isPrefix c.mode c.rest).length_le
    have hrest := congrArg List.length h.drop_offset
    have hoffset := h.offset_le
    rw [Reading.length_text] at hsize
    rw [List.length_drop] at hrest
    change c.offset + (c.mode.read c.rest).size ≤ _
    omega
  mode_eq := by
    rw [List.map_append, List.foldl_append, ← h.mode_eq]
    rfl

theorem slice_gap (h : s.Reaches done c) :
    s.slice c.offset c.step.start = Trivia.join c.step.reading.gap := by
  have hsize : c.step.start - c.offset = c.step.reading.gapSize := Nat.add_sub_cancel_left _ _
  rw [slice, h.drop_offset, hsize, ← c.gap_append_text_append_next]
  exact List.take_left

theorem drop_start (h : s.Reaches done c) :
    s.content.drop c.step.start = c.rest.drop c.step.reading.gapSize := by
  rw [← h.drop_offset, List.drop_drop]
  rfl

/-- From the place of a token on there is its text and then what follows it. -/
theorem drop_start_eq_append (h : s.Reaches done c) :
    s.content.drop c.step.start = c.step.lexeme.text ++ s.content.drop c.step.stop := by
  rw [h.drop_start, show s.content.drop c.step.stop = c.next.rest from h.next.drop_offset,
    ← c.gap_append_text_append_next]
  exact List.drop_left

/-- In code the text at the place of a token is read as code. -/
theorem lexeme_of_code (h : s.Reaches done c) (hmode : c.mode = .code) :
    c.step.lexeme = codeLexeme (s.content.drop c.step.start) := by
  rw [h.drop_start]
  change (c.mode.read c.rest).lexeme = codeLexeme (c.rest.drop (c.mode.read c.rest).gapSize)
  rw [hmode]
  rfl

theorem slice_token (h : s.Reaches done c) :
    s.slice c.step.start c.step.stop = c.step.lexeme.text := by
  have hsize : c.step.stop - c.step.start = c.step.lexeme.text.length := by
    rw [← Step.stop_token]
    exact Nat.add_sub_cancel_left _ _
  rw [slice, h.drop_start_eq_append, hsize]
  exact List.take_left

end Reaches

theorem reaches_begin (s : Source) : s.Reaches [] (Cursor.begin s.content) :=
  ⟨rfl, Nat.zero_le _, rfl⟩

theorem exists_reaches_steps {i : Nat} {step : Step} (h : s.steps[i]? = some step) :
    ∃ c, s.Reaches (s.steps.take i) c ∧ c.step = step ∧ c.steps = s.steps.drop i :=
  Cursor.exists_of_getElem?_steps (fun _ _ => Reaches.next) s.reaches_begin h

theorem exists_reaches {i : Nat} {step : Step} (h : s.steps[i]? = some step) :
    ∃ c, s.Reaches (s.steps.take i) c ∧ c.step = step :=
  (exists_reaches_steps h).imp fun _ hc => ⟨hc.1, hc.2.1⟩

/-- The step after one that is not at the end is that of the next cursor. -/
theorem getElem?_steps_succ {i : Nat} {c : Cursor} (hsteps : c.steps = s.steps.drop i)
    (hne : c.step.lexeme.kind ≠ .eof) : s.steps[i + 1]? = some c.next.step := by
  rw [← List.getElem?_drop, ← hsteps, Cursor.steps_of_ne hne]
  exact c.next.getElem?_steps_zero

theorem Reaches.mode_of_opened {i : Nat} {c : Cursor} (h : s.Reaches (s.steps.take i) c)
    (hopened : Opened (s.tokens.take i)) : c.mode = .code := by
  rw [h.mode_eq, List.map_take]
  exact modeAfter_of_opened hopened

theorem Reaches.mode_of_not_opened {i : Nat} {c : Cursor} (h : s.Reaches (s.steps.take i) c)
    (hopened : ¬ Opened (s.tokens.take i)) : c.mode = .markup := by
  cases hmode : c.mode with
  | markup => rfl
  | code =>
    rw [h.mode_eq, List.map_take] at hmode
    exact absurd (opened_of_modeAfter hmode) hopened

/-- After an open tag the text at the place of a token is read as code. -/
theorem lexeme_of_opened {i : Nat} {step : Step} (h : s.steps[i]? = some step)
    (hopened : Opened (s.tokens.take i)) :
    step.lexeme = codeLexeme (s.content.drop step.start) := by
  obtain ⟨c, hc, rfl⟩ := exists_reaches h
  exact hc.lexeme_of_code (hc.mode_of_opened hopened)

/-- After a token of code that is neither the end nor a close tag, code is read on where the token
ends. -/
theorem next_step_of_opened {i : Nat} {step : Step} (h : s.steps[i]? = some step)
    (hopened : Opened (s.tokens.take i)) (heof : step.lexeme.kind ≠ .eof)
    (hclose : step.lexeme.kind ≠ .closeTag) :
    s.steps[i + 1]? = some ⟨step.stop, Mode.code.read (s.content.drop step.stop)⟩ := by
  obtain ⟨c, hc, rfl, hsteps⟩ := exists_reaches_steps h
  have hmode : c.next.mode = .code := by
    change c.step.lexeme.kind.modeAfter c.mode = .code
    rw [hc.mode_of_opened hopened]
    exact Kind.modeAfter_code hclose
  have hnext : c.next.step = ⟨c.step.stop, Mode.code.read (s.content.drop c.step.stop)⟩ := by
    rw [← hmode, show s.content.drop c.step.stop = c.next.rest from hc.next.drop_offset]
    rfl
  rw [getElem?_steps_succ hsteps heof, hnext]

/-- A step to a token that is not the end has no fault but that of the token. -/
theorem error?_of_ne {i : Nat} {step : Step} (h : s.steps[i]? = some step)
    (hne : step.lexeme.kind ≠ .eof) : step.error? =
      step.lexeme.fault?.map fun fault => ⟨fault, step.start, step.stop⟩ := by
  obtain ⟨c, -, rfl⟩ := exists_reaches h
  have hwhole : Trivia.unclosed? c.step.reading.gap = none := unclosed?_gap_of_ne hne
  rw [Step.error?, Reading.fault?, hwhole, Option.map_map]
  change (c.step.lexeme.fault?.map fun fault => LexError.mk fault
    (c.step.stop - c.step.lexeme.text.length) c.step.stop) = _
  rw [Step.stop_sub_length]

theorem error?_of_sound {i : Nat} {step : Step} (h : s.steps[i]? = some step)
    (hsound : step.lexeme.kind ≠ .error ∧ step.lexeme.kind ≠ .eof) : step.error? = none := by
  rw [error?_of_ne h hsound.2, Lexeme.fault?, if_pos hsound.1, Option.map_none]

theorem gapsFrom_steps {done : List Step} {c : Cursor} (h : s.Reaches done c) :
    s.gapsFrom c.offset (c.steps.map Step.token) =
      c.steps.map fun step => Trivia.join step.reading.gap := by
  induction c using Cursor.next_induction generalizing done with
  | last c heof =>
    rw [Cursor.steps_of_eof heof]
    exact congrArg (· :: []) h.slice_gap
  | more c heof ih =>
    have hstop : c.step.token.stop = c.next.offset := c.step.stop_token
    rw [Cursor.steps_of_ne heof, List.map_cons, gapsFrom, hstop, ih h.next, List.map_cons,
      ← h.slice_gap]
    rfl

/-- The gaps are what the steps skip. -/
theorem gaps_eq (s : Source) : s.gaps = s.steps.map fun step => Trivia.join step.reading.gap :=
  gapsFrom_steps s.reaches_begin

theorem exists_reaches_of_gap {i : Nat} {gap : Bytes} (h : s.gaps[i]? = some gap) :
    ∃ c, s.Reaches (s.steps.take i) c ∧ gap = Trivia.join c.step.reading.gap ∧
      s.tokens[i]? = some c.step.token := by
  rw [gaps_eq, List.getElem?_map, Option.map_eq_some_iff] at h
  obtain ⟨step, hstep, rfl⟩ := h
  obtain ⟨c, hc, rfl⟩ := exists_reaches hstep
  refine ⟨c, hc, rfl, ?_⟩
  rw [tokens, List.getElem?_map, hstep, Option.map_some]

theorem slice_of_mem_tokens {t : Token} (h : t ∈ s.tokens) :
    t.stop ≤ s.content.length ∧ s.slice t.offset t.stop = t.text := by
  obtain ⟨step, hstep, rfl⟩ := List.mem_map.mp h
  obtain ⟨i, hi⟩ := List.mem_iff_getElem?.mp hstep
  obtain ⟨c, hc, rfl⟩ := exists_reaches hi
  rw [Step.stop_token]
  exact ⟨hc.next.offset_le, hc.slice_token⟩

theorem exists_error_iff (s : Source) : (∃ e ∈ s.errors, e.fault.code = ascii "L002") ↔
    ∃ step ∈ s.steps, (Trivia.unclosed? step.reading.gap).isSome := by
  constructor
  · rintro ⟨e, he, hcode⟩
    obtain ⟨step, hstep, herror⟩ := List.mem_filterMap.mp he
    exact ⟨step, hstep, step.exists_error?_iff.mp ⟨e, herror, hcode⟩⟩
  · rintro ⟨step, hstep, hopen⟩
    obtain ⟨e, herror, hcode⟩ := step.exists_error?_iff.mpr hopen
    exact ⟨e, List.mem_filterMap.mpr ⟨step, hstep, herror⟩, hcode⟩

/-- The tokens of a source and the gaps between them make up its content. -/
theorem laidOut (s : Source) (hsize : s.content.length < 2 ^ 32) : s.LaidOut where
  ends := by
    obtain ⟨before, last, hsteps, hlast, hbefore⟩ := (Cursor.begin s.content).exists_last_step
    refine ⟨before.map Step.token, last.token, ?_, congrArg Lexeme.kind hlast,
      congrArg Lexeme.text hlast, ?_⟩
    · rw [tokens, steps, hsteps, List.map_append]
      rfl
    · intro t ht
      obtain ⟨step, hstep, rfl⟩ := List.mem_map.mp ht
      exact hbefore step hstep
  slices := by
    intro t ht
    obtain ⟨hstop, hslice⟩ := slice_of_mem_tokens ht
    have hoffset : t.offset < 2 ^ 32 :=
      Nat.lt_of_le_of_lt (Nat.le_trans (Nat.le_add_right _ _) hstop) hsize
    have hlength : t.text.length < 2 ^ 32 :=
      Nat.lt_of_le_of_lt (Nat.le_trans (Nat.le_add_left _ _) hstop) hsize
    exact ⟨hstop, hslice, UInt32.toNat_ofNat_of_lt' hoffset, UInt32.toNat_ofNat_of_lt' hlength⟩
  ordered := (Cursor.begin s.content).pairwise_tokens
  partition := by
    rw [gaps_eq, tokens]
    refine ⟨by simp, ?_⟩
    rw [List.zip_map', List.flatMap_map]
    exact (Cursor.begin s.content).flatMap_text_steps.symm
  opened := by
    intro i gap hgap hne
    obtain ⟨c, hc, rfl, -⟩ := exists_reaches_of_gap hgap
    rw [tokens, ← List.map_take]
    refine opened_of_modeAfter ?_
    rw [← hc.mode_eq]
    exact Cursor.mode_of_gap_ne hne
  skipped := by
    intro i gap t hgap ht
    obtain ⟨c, hc, rfl, htoken⟩ := exists_reaches_of_gap hgap
    obtain rfl := Option.some.inj (htoken.symm.trans ht)
    have hrest : s.content.drop c.step.token.offset = c.rest.drop c.step.reading.gapSize :=
      hc.drop_start
    rw [hrest]
    exact skipped_gap_read c.mode c.rest
  unfinished := by
    rw [exists_error_iff, steps, Cursor.exists_unclosed_iff, gaps_eq, List.getLast?_map]
    simp [steps]

/-- Markup, comments of all three sorts, one of which ends at a close tag, and an open comment. -/
theorem laidOut_open_comment :
    let s := Source.mk (ascii "a.php") (ascii "<b><?php #[A] // x ?>\n<?= /* */ 1 # y\n /*/ z")
    s.content.length < 2 ^ 32 ∧ s.LaidOut ∧ s.errors.map (·.fault.code) = [ascii "L002"] ∧
      s.gaps = ["", "", " ", "", "", " // x ", "", " /* */ ", " # y\n /*/ z"].map ascii := by
  intro s
  exact ⟨by decide, laidOut s (by decide), by decide +kernel, by decide +kernel⟩

end Source

end TextDomain
