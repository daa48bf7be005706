import TextDomain.Proofs.Layout
import TextDomain.Proofs.Rereading

/-!
# Where heredocs end

A heredoc has a header (`Heredoc.IsHeader`) and goes on to the first line after it that closes it
(`Heredoc.Closes`). Both are given as forms of text: a header is `<<<`, blanks, a label that may
stand in quotes, and a line end; a closing line is blanks and the label, with no name byte after it.
What follows a label in either is no name byte, so a label is never the start of a longer name.

`Heredoc.header?` finds a header exactly where there is one (`Heredoc.header?_eq_some_iff`), and
`Heredoc.closing?` goes through the lines one by one (`Heredoc.closing?_of_closes`).
-/

namespace TextDomain

namespace Heredoc

/-- What a label may stand between. -/
def labelQuotes : List Bytes :=
  [[], [Byte.singleQuote], [Byte.doubleQuote]]

/-- A text is a header with this label, its line feed included. -/
def IsHeader (text label : Bytes) : Prop :=
  ∃ blanks quote cr,
    text = ascii "<<<" ++ (blanks ++ (quote ++ label ++ quote ++ (cr ++ [Byte.lf]))) ∧
    (∀ b ∈ blanks, Byte.isBlank b = true) ∧
    quote ∈ labelQuotes ∧ Name.IsSimple label ∧ cr ∈ [[], [Byte.cr]]

/-- A line closes the heredoc with this label; `marker` is the line up to the end of the label. -/
def Closes (label marker line : Bytes) : Prop :=
  ∃ blanks tail, marker = blanks ++ label ∧ line = marker ++ tail ∧
    (∀ b ∈ blanks, Byte.isBlank b = true) ∧ Bytes.startsIn Byte.isNameByte tail = false

end Heredoc

namespace Bytes

theorem isPrefix_of_startsWith {c : UInt8} {s : Bytes} (h : startsWith c s = true) : [c] <+: s := by
  cases s with
  | nil => cases h
  | cons b s =>
    obtain rfl : b = c := eq_of_beq h
    exact ⟨s, rfl⟩

/-- The first line of a text, and the lines of what follows its line feed. -/
theorem line_of_splitAt {sep : UInt8} {s line : Bytes} {lines : List Bytes}
    (h : splitAt sep s = line :: lines) :
    sep ∉ line ∧ (lines = [] ∧ s = line ∨ ∃ rest, s = line ++ sep :: rest ∧
      splitAt sep rest = lines) := by
  induction s generalizing line with
  | nil =>
    obtain ⟨rfl, rfl⟩ := List.cons.inj h
    exact ⟨List.not_mem_nil, .inl ⟨rfl, rfl⟩⟩
  | cons c s ih =>
    rw [splitAt] at h
    split at h
    · rename_i hc
      obtain ⟨rfl, rfl⟩ := List.cons.inj h
      exact ⟨List.not_mem_nil, .inr ⟨s, by rw [hc]; rfl, rfl⟩⟩
    · rename_i hc
      split at h
      · rename_i hnil
        exact absurd hnil (splitAt_ne_nil sep s)
      · rename_i part parts hparts
        obtain ⟨rfl, rfl⟩ := List.cons.inj h
        obtain ⟨hpart, hrest⟩ := ih hparts
        refine ⟨List.not_mem_cons_of_ne_of_not_mem (Ne.symm hc) hpart, ?_⟩
        rcases hrest with ⟨rfl, rfl⟩ | ⟨rest, rfl, hrest⟩
        · exact .inl ⟨rfl, rfl⟩
        · exact .inr ⟨rest, rfl, hrest⟩

end Bytes

namespace Name

theorem IsSimple.isNameByte {name : Bytes} (h : IsSimple name) :
    ∀ b ∈ name, Byte.isNameByte b = true := by
  obtain ⟨c, tail, rfl, hc, htail⟩ := h
  intro b hb
  rcases List.mem_cons.mp hb with rfl | hb
  · simp [Byte.isNameByte, hc]
  · exact htail b hb

/-- A run of name bytes that starts with the start of a name is a name. -/
theorem isSimple_takeWhile {s : Bytes} (h : Bytes.startsIn Byte.isNameStart s = true) :
    IsSimple (s.takeWhile Byte.isNameByte) := by
  cases s with
  | nil => cases h
  | cons c s =>
    have hc : Byte.isNameStart c = true := h
    have hbyte : Byte.isNameByte c = true := by simp [Byte.isNameByte, hc]
    refine ⟨c, s.takeWhile Byte.isNameByte, ?_, hc, fun b hb => List.mem_takeWhile_imp hb⟩
    rw [List.takeWhile_cons_of_pos hbyte]

end Name

/-! ## Headers -/

namespace Heredoc

variable {label : Bytes}

theorem mem_labelQuotes {quote : Bytes} : quote ∈ labelQuotes ↔
    quote = [] ∨ quote = [Byte.singleQuote] ∨ quote = [Byte.doubleQuote] := by
  simp [labelQuotes]

theorem IsHeader.isSimple {text : Bytes} (h : IsHeader text label) : Name.IsSimple label := by
  obtain ⟨blanks, quote, cr, -, -, -, hlabel, -⟩ := h
  exact hlabel

theorem labelQuote_append {quote : Bytes} (h : quote ∈ labelQuotes) (hlabel : Name.IsSimple label)
    (rest : Bytes) : labelQuote (quote ++ (label ++ rest)) = quote := by
  rcases mem_labelQuotes.mp h with rfl | rfl | rfl
  · obtain ⟨c, name, rfl, hc, -⟩ := hlabel
    refine if_neg ?_
    rintro (rfl | rfl) <;> cases hc
  · rfl
  · rfl

theorem labelQuote_mem (s : Bytes) : labelQuote s ∈ labelQuotes := by
  unfold labelQuote
  split
  · decide
  · split
    · rename_i hc
      rcases hc with rfl | rfl <;> decide
    · decide

theorem carriageReturn_mem (s : Bytes) : carriageReturn s ∈ [[], [Byte.cr]] := by
  unfold carriageReturn
  split <;> decide

/-- A label in its quotes is read up to the byte after it. -/
theorem label?_append_of_isSimple {quote rest : Bytes} (hquote : quote ∈ labelQuotes)
    (hlabel : Name.IsSimple label)
    (hrest : Bytes.startsIn Byte.isNameByte (quote ++ rest) = false) :
    label? (quote ++ label ++ quote ++ rest) = some (quote ++ label ++ quote, label) := by
  have hshape : quote ++ label ++ quote ++ rest = quote ++ (label ++ (quote ++ rest)) := by simp
  have hname := Bytes.takeWhile_append hlabel.isNameByte hrest
  have hstart : Bytes.startsIn Byte.isNameStart (label ++ (quote ++ rest)) = true := by
    obtain ⟨c, name, rfl, hc, -⟩ := hlabel
    exact hc
  rw [hshape, label?]
  simp only [labelQuote_append hquote hlabel, List.drop_left, hname, hstart,
    List.isPrefixOf_iff_prefix, List.prefix_append, and_self, if_true]

theorem exists_of_label? {s written : Bytes} (h : label? s = some (written, label)) :
    ∃ quote ∈ labelQuotes, written = quote ++ label ++ quote ∧ Name.IsSimple label := by
  unfold label? at h
  dsimp only at h
  split at h
  · rename_i hlabel
    obtain ⟨rfl, rfl⟩ := Prod.mk.inj (Option.some.inj h)
    exact ⟨_, labelQuote_mem s, rfl, Name.isSimple_takeWhile hlabel.1⟩
  · cases h

theorem carriageReturn_append_lf {cr : Bytes} (h : cr ∈ [[], [Byte.cr]]) (rest : Bytes) :
    carriageReturn (cr ++ Byte.lf :: rest) = cr := by
  simp only [List.mem_cons, List.not_mem_nil, or_false] at h
  rcases h with rfl | rfl <;> rfl

/-- Blanks before a label end where it starts, with or without a quote. -/
theorem startsIn_isBlank_label {quote : Bytes} (hquote : quote ∈ labelQuotes)
    (hlabel : Name.IsSimple label) (rest : Bytes) :
    Bytes.startsIn Byte.isBlank (quote ++ label ++ rest) = false := by
  obtain ⟨c, name, rfl, hc, -⟩ := hlabel
  rcases mem_labelQuotes.mp hquote with rfl | rfl | rfl
  · change Byte.isBlank c = false
    by_contra hblank
    simp only [Bool.not_eq_false, Byte.isBlank, Bool.or_eq_true, beq_iff_eq] at hblank
    rcases hblank with rfl | rfl <;> cases hc
  · rfl
  · rfl

/-- A header is found where there is one. -/
theorem header?_of_isHeader {text : Bytes} (h : IsHeader (text ++ [Byte.lf]) label) (rest : Bytes) :
    header? (text ++ Byte.lf :: rest) = some ⟨text, label⟩ := by
  obtain ⟨blanks, quote, cr, htext, hblanks, hquote, hlabel, hcr⟩ := h
  obtain rfl : text = ascii "<<<" ++ blanks ++ (quote ++ label ++ quote) ++ cr := by
    simp only [← List.append_assoc] at htext ⊢
    exact List.append_cancel_right htext
  -- neither a quote nor a line end goes on with the label
  have hend : Bytes.startsIn Byte.isNameByte (quote ++ (cr ++ Byte.lf :: rest)) = false := by
    simp only [List.mem_cons, List.not_mem_nil, or_false] at hcr
    rcases mem_labelQuotes.mp hquote with rfl | rfl | rfl <;> rcases hcr with rfl | rfl <;> rfl
  have hread := label?_append_of_isSimple hquote hlabel hend
  have hstart := startsIn_isBlank_label hquote hlabel (quote ++ (cr ++ Byte.lf :: rest))
  rw [← List.append_assoc (quote ++ label)] at hstart
  generalize quote ++ label ++ quote = written at hread hstart ⊢
  have htake := Bytes.takeWhile_append hblanks hstart
  simp only [List.append_assoc, header?, Bytes.after?_append, Option.bind_eq_bind,
    Option.bind_some, htake, List.drop_left, hread, carriageReturn_append_lf hcr]
  rfl

/-- What is found to be a header is one. -/
theorem isHeader_of_header? {s : Bytes} {header : Header} (h : header? s = some header) :
    IsHeader (header.text ++ [Byte.lf]) header.label ∧ header.text ++ [Byte.lf] <+: s := by
  simp only [header?, Option.bind_eq_bind, Option.bind_eq_some_iff] at h
  obtain ⟨rest, hrest, ⟨written, label⟩, hread, h⟩ := h
  obtain rfl := Bytes.eq_of_after? hrest
  split at h
  · rename_i hlf
    obtain rfl := Option.some.inj h
    dsimp only at hread hlf ⊢
    set after := (rest.drop (rest.takeWhile Byte.isBlank).length).drop written.length
    obtain ⟨quote, hquote, hwritten, hlabel⟩ := exists_of_label? hread
    constructor
    · refine ⟨rest.takeWhile Byte.isBlank, quote, carriageReturn after, ?_,
        fun b hb => List.mem_takeWhile_imp hb, hquote, hlabel, carriageReturn_mem after⟩
      simp only [hwritten, List.append_assoc]
    · simp only [List.append_assoc, List.prefix_append_right_inj]
      refine Bytes.append_isPrefix (List.takeWhile_prefix _) ?_
      refine Bytes.append_isPrefix (label?_isPrefix hread) ?_
      refine Bytes.append_isPrefix (carriageReturn_isPrefix _) ?_
      exact Bytes.isPrefix_of_startsWith hlf
  · cases h

/-- A text has a header exactly if it starts with one. -/
theorem header?_eq_some_iff {s : Bytes} {header : Header} : header? s = some header ↔
    IsHeader (header.text ++ [Byte.lf]) header.label ∧ header.text ++ [Byte.lf] <+: s := by
  refine ⟨isHeader_of_header?, ?_⟩
  rintro ⟨hheader, rest, rfl⟩
  rw [List.append_assoc]
  exact header?_of_isHeader hheader rest

/-! ## Closing lines -/

/-- The marker at the start of a line is found where there is one. -/
theorem marker?_eq_some_iff (hlabel : Name.IsSimple label) {line marker : Bytes} :
    marker? label line = some marker ↔ Closes label marker line := by
  constructor
  · intro h
    unfold marker? at h
    dsimp only at h
    split at h
    · rename_i tail htail
      split at h
      · cases h
      · rename_i hname
        obtain rfl := Option.some.inj h
        refine ⟨line.takeWhile Byte.isBlank, tail, rfl, ?_, fun b hb => List.mem_takeWhile_imp hb,
          Bool.eq_false_iff.mpr hname⟩
        rw [List.append_assoc, ← Bytes.eq_of_after? htail]
        exact List.prefix_iff_eq_append.mp (List.takeWhile_prefix _) |>.symm
    · cases h
  · rintro ⟨blanks, tail, rfl, rfl, hblanks, htail⟩
    have hstart : Bytes.startsIn Byte.isBlank (label ++ tail) = false :=
      startsIn_isBlank_label List.mem_cons_self hlabel tail
    simp [marker?, Bytes.takeWhile_append hblanks hstart, Bytes.after?_append, htail]

theorem marker?_eq_none (hlabel : Name.IsSimple label) {line : Bytes}
    (h : ∀ marker, ¬ Closes label marker line) : marker? label line = none :=
  Option.eq_none_iff_forall_ne_some.mpr fun marker hmarker =>
    h marker ((marker?_eq_some_iff hlabel).mp hmarker)

theorem Closes.lf_not_mem (hlabel : Name.IsSimple label) {marker line : Bytes}
    (h : Closes label marker line) : Byte.lf ∉ marker := by
  obtain ⟨blanks, tail, rfl, -, hblanks, -⟩ := h
  intro hlf
  rcases List.mem_append.mp hlf with hlf | hlf
  · exact absurd (hblanks _ hlf) (by decide)
  · exact absurd (hlabel.isNameByte _ hlf) (by decide)

/-- Whether a line closes a heredoc does not depend on what follows the line. -/
theorem closes_append_lf_iff (hlabel : Name.IsSimple label) {line marker rest : Bytes}
    (hline : Byte.lf ∉ line) :
    Closes label marker (line ++ Byte.lf :: rest) ↔ Closes label marker line := by
  constructor
  · intro h
    have hlf := h.lf_not_mem hlabel
    obtain ⟨blanks, tail, hmarker, heq, hblanks, htail⟩ := h
    -- the marker has no line feed, so it ends within the line
    obtain ⟨more, hmore, hrest⟩ | ⟨more, rfl, rfl⟩ := List.append_eq_append_iff.mp heq
    · cases more with
      | nil => exact ⟨blanks, [], hmarker, by simpa using hmore.symm, hblanks, rfl⟩
      | cons c more =>
        obtain rfl : Byte.lf = c := (List.cons.inj hrest).1
        exact absurd (hmore ▸ by simp) hlf
    · refine ⟨blanks, more, hmarker, rfl, hblanks, ?_⟩
      cases more with
      | nil => rfl
      | cons c more => exact htail
  · rintro ⟨blanks, tail, hmarker, rfl, hblanks, htail⟩
    refine ⟨blanks, tail ++ Byte.lf :: rest, hmarker, List.append_assoc .., hblanks, ?_⟩
    cases tail with
    | nil => rfl
    | cons c tail => exact htail

theorem marker?_append_lf (hlabel : Name.IsSimple label) {line : Bytes} (hline : Byte.lf ∉ line)
    (rest : Bytes) : marker? label (line ++ Byte.lf :: rest) = marker? label line := by
  ext marker
  rw [marker?_eq_some_iff hlabel, marker?_eq_some_iff hlabel, closes_append_lf_iff hlabel hline]

theorem closing?_fresh (label s : Bytes) :
    closing? label true s = (marker? label s).or (closing? label false s) := by
  cases s with
  | nil => simp [closing?]
  | cons c s =>
    simp only [closing?, if_true]
    cases marker? label (c :: s) <;> rfl

/-- The rest of a line is passed over. -/
theorem closing?_append_lf {line : Bytes} (hline : Byte.lf ∉ line) (label rest : Bytes) :
    closing? label false (line ++ Byte.lf :: rest) =
      (closing? label true rest).map (line ++ [Byte.lf] ++ ·) := by
  induction line with
  | nil => simp [closing?]
  | cons c line ih =>
    have hc : (c == Byte.lf) = false := beq_false_of_ne (List.ne_of_not_mem_cons hline).symm
    simp [closing?, hc, ih (List.not_mem_of_not_mem_cons hline), Function.comp_def]

theorem closing?_of_lf_not_mem {line : Bytes} (hline : Byte.lf ∉ line) (label : Bytes) :
    closing? label false line = none := by
  induction line with
  | nil => rfl
  | cons c line ih =>
    have hc : (c == Byte.lf) = false := beq_false_of_ne (List.ne_of_not_mem_cons hline).symm
    simp [closing?, hc, ih (List.not_mem_of_not_mem_cons hline)]

/-- One line of the search: it is looked at as a whole before the lines after it. -/
theorem closing?_line (hlabel : Name.IsSimple label) {line : Bytes} (hline : Byte.lf ∉ line)
    (rest : Bytes) : closing? label true (line ++ Byte.lf :: rest) =
      (marker? label line).or ((closing? label true rest).map (line ++ [Byte.lf] ++ ·)) := by
  rw [closing?_fresh, marker?_append_lf hlabel hline, closing?_append_lf hline]

theorem closing?_last_line {line : Bytes} (hline : Byte.lf ∉ line) (label : Bytes) :
    closing? label true line = marker? label line := by
  rw [closing?_fresh, closing?_of_lf_not_mem hline, Option.or_none]

/-- The search ends in the first line that closes the heredoc. -/
theorem closing?_of_closes (hlabel : Name.IsSimple label) {marker line : Bytes} {later : List Bytes}
    (hcloses : Closes label marker line) {earlier : List Bytes} {s : Bytes}
    (hlines : Bytes.splitAt Byte.lf s = earlier ++ line :: later)
    (hearlier : ∀ l ∈ earlier, ∀ m, ¬ Closes label m l) :
    closing? label true s = some (earlier.flatMap (· ++ [Byte.lf]) ++ marker) := by
  have hmarker := (marker?_eq_some_iff hlabel).mpr hcloses
  -- along the lines that are passed over, each of them together with its line feed
  induction earlier generalizing s with
  | nil =>
    obtain ⟨hlf, ⟨-, rfl⟩ | ⟨rest, rfl, -⟩⟩ := Bytes.line_of_splitAt hlines
    · rw [closing?_last_line hlf, hmarker]
      rfl
    · rw [closing?_line hlabel hlf, hmarker]
      rfl
  | cons first earlier ih =>
    obtain ⟨hlf, ⟨hnil, -⟩ | ⟨rest, rfl, hrest⟩⟩ := Bytes.line_of_splitAt hlines
    · simp at hnil
    · rw [closing?_line hlabel hlf, marker?_eq_none hlabel (hearlier first List.mem_cons_self),
        Option.none_or, ih hrest fun l hl => hearlier l (List.mem_cons_of_mem _ hl)]
      simp

/-- The search fails if no line closes the heredoc. -/
theorem closing?_eq_none (hlabel : Name.IsSimple label) {s : Bytes}
    (h : ∀ line ∈ Bytes.splitAt Byte.lf s, ∀ marker, ¬ Closes label marker line) :
    closing? label true s = none := by
  generalize hlines : Bytes.splitAt Byte.lf s = lines at h
  induction lines generalizing s with
  | nil => exact absurd hlines (Bytes.splitAt_ne_nil _ _)
  | cons line lines ih =>
    have hnone := marker?_eq_none hlabel (h line List.mem_cons_self)
    obtain ⟨hlf, ⟨-, heq⟩ | ⟨rest, rfl, hrest⟩⟩ := Bytes.line_of_splitAt hlines
    · rw [heq, closing?_last_line hlf, hnone]
    · rw [closing?_line hlabel hlf, hnone, ih hrest fun l hl => h l (List.mem_cons_of_mem _ hl)]
      rfl

/-! ## Whole heredocs -/

/-- After a header the lines are searched. -/
theorem heredoc?_of_isHeader {header : Bytes} (h : IsHeader header label) (rest : Bytes) :
    heredoc? (header ++ rest) = some (match closing? label true rest with
      | some body => ⟨.heredoc, header ++ body⟩
      | none => ⟨.error, header ++ rest⟩) := by
  obtain ⟨text, rfl⟩ : ∃ text, header = text ++ [Byte.lf] := by
    obtain ⟨blanks, quote, cr, rfl, -⟩ := h
    exact ⟨ascii "<<<" ++ (blanks ++ (quote ++ label ++ quote ++ cr)), by simp⟩
  rw [List.append_assoc, List.singleton_append, heredoc?, header?_of_isHeader h, Option.map_some,
    List.drop_left, ← List.nil_append (Byte.lf :: rest), closing?_append_lf List.not_mem_nil]
  cases closing? label true rest <;> simp

theorem heredoc?_eq_none {s : Bytes} (h : ∀ header label, IsHeader header label → ¬ header <+: s) :
    heredoc? s = none := by
  rw [heredoc?, Option.map_eq_none_iff, Option.eq_none_iff_forall_ne_some]
  intro header hheader
  obtain ⟨hheader, hprefix⟩ := header?_eq_some_iff.mp hheader
  exact h _ _ hheader hprefix

end Heredoc

/-! ## Heredocs of a source -/

/-- How the token `i` of a source is read, by the step `step`, where its text starts with `<<<`. -/
structure Source.ReadsHeredoc (s : Source) (i : Nat) (step : Step) : Prop where
  /-- Without a header it is an operator of two bytes, and reading goes on right after them. -/
  operator : (∀ header label, Heredoc.IsHeader header label →
      ¬ header <+: s.content.drop step.start) →
    step.lexeme = ⟨.operator, ascii "<<"⟩ ∧ step.error? = none ∧
    s.steps[i + 1]? = some ⟨step.start + 2, Mode.code.read (s.content.drop (step.start + 2))⟩
  /-- It ends after the label on the first line that closes it. -/
  closed : ∀ header label rest, Heredoc.IsHeader header label →
    s.content.drop step.start = header ++ rest → ∀ earlier line later marker,
    Bytes.splitAt Byte.lf rest = earlier ++ line :: later →
    (∀ l ∈ earlier, ∀ m, ¬ Heredoc.Closes label m l) → Heredoc.Closes label marker line →
    step.lexeme = ⟨.heredoc, header ++ (earlier.flatMap (· ++ [Byte.lf]) ++ marker)⟩ ∧
    step.error? = none
  /-- Without such a line it takes all there is, which is an error. -/
  unclosed : ∀ header label rest, Heredoc.IsHeader header label →
    s.content.drop step.start = header ++ rest →
    (∀ line ∈ Bytes.splitAt Byte.lf rest, ∀ marker, ¬ Heredoc.Closes label marker line) →
    step.lexeme = ⟨.error, s.content.drop step.start⟩ ∧ step.stop = s.content.length ∧
    ∃ error, step.error? = some error ∧ error.fault.code = ascii "L003" ∧
      error.offset = step.start ∧ error.stop = s.content.length

namespace Source

variable {s : Source} {i : Nat} {step : Step}

/-- A header at the place of a token of code decides how the token is read. -/
theorem lexeme_of_isHeader {header label rest : Bytes} (hstep : s.steps[i]? = some step)
    (hopened : Opened (s.tokens.take i)) (hheader : Heredoc.IsHeader header label)
    (hdrop : s.content.drop step.start = header ++ rest) :
    step.lexeme = match Heredoc.closing? label true rest with
      | some body => ⟨.heredoc, header ++ body⟩
      | none => ⟨.error, header ++ rest⟩ := by
  have hread := Heredoc.heredoc?_of_isHeader hheader rest
  obtain ⟨blanks, quote, cr, rfl, -⟩ := hheader
  rw [List.append_assoc] at hread hdrop
  rw [lexeme_of_opened hstep hopened, hdrop, codeLexeme_opener, hread, Option.getD_some]
  rfl

/-- A token that takes all there is ends with the content. -/
theorem stop_of_drop_eq (hne : s.content.drop step.start ≠ [])
    (h : step.lexeme.text = s.content.drop step.start) : step.stop = s.content.length := by
  have hstop : step.stop = step.start + step.lexeme.text.length := (Step.stop_token step).symm
  have hlt := List.length_pos_iff.mpr hne
  rw [hstop, h]
  simp only [List.length_drop] at hlt ⊢
  omega

/-- Heredocs in code go from a header to the first line that closes them. -/
theorem heredocs (s : Source) (i : Nat) (step : Step) (hstep : s.steps[i]? = some step)
    (hopened : Opened (s.tokens.take i)) (hdrop : ascii "<<<" <+: s.content.drop step.start) :
    s.ReadsHeredoc i step := by
  constructor
  case operator =>
    intro hnone
    have hlexeme : step.lexeme = ⟨.operator, ascii "<<"⟩ := by
      obtain ⟨rest, hrest⟩ := hdrop
      rw [lexeme_of_opened hstep hopened, ← hrest, codeLexeme_opener, hrest,
        Heredoc.heredoc?_eq_none hnone]
      rfl
    have hstop : step.stop = step.start + 2 := by rw [← Step.stop_token, Step.token, hlexeme]; rfl
    refine ⟨hlexeme, error?_of_sound hstep (by rw [hlexeme]; decide), ?_⟩
    rw [← hstop]
    exact next_step_of_opened hstep hopened (by rw [hlexeme]; decide) (by rw [hlexeme]; decide)
  case closed =>
    intro header label rest hheader hrest earlier line later marker hlines hearlier hline
    have hlexeme := lexeme_of_isHeader hstep hopened hheader hrest
    rw [Heredoc.closing?_of_closes hheader.isSimple hline hlines hearlier] at hlexeme
    exact ⟨hlexeme, error?_of_sound hstep (by rw [hlexeme]; simp)⟩
  case unclosed =>
    intro header label rest hheader hrest hlines
    have hlexeme := lexeme_of_isHeader hstep hopened hheader hrest
    rw [Heredoc.closing?_eq_none hheader.isSimple hlines, ← hrest] at hlexeme
    obtain ⟨tail, htail⟩ := hdrop
    have hend : step.stop = s.content.length :=
      stop_of_drop_eq (by rw [← htail]; simp [ascii]) (by rw [hlexeme])
    have hfault : step.lexeme.fault? = some .openHeredoc := by
      rw [hlexeme, ← htail]
      rfl
    refine ⟨hlexeme, hend, ⟨.openHeredoc, step.start, step.stop⟩, ?_, rfl, rfl, hend⟩
    rw [error?_of_ne hstep (by rw [hlexeme]; simp), hfault, Option.map_some]

/-- A heredoc that an indented label closes after a longer name and an empty line, an operator
before a label that no line end follows, and a heredoc without an end. -/
theorem heredocs_in_a_row :
    let s := Source.mk (ascii "a.php") (ascii "<?php <<<\"E\"\r\nEX\n\n  E.<<<B \n<<<C\n c")
    let first : Step := ⟨5, [.space Byte.space], ⟨.heredoc, ascii "<<<\"E\"\r\nEX\n\n  E"⟩⟩
    let second : Step := ⟨22, [], ⟨.operator, ascii "<<"⟩⟩
    let last : Step := ⟨26, [.space Byte.space, .space Byte.lf], ⟨.error, ascii "<<<C\n c"⟩⟩
    (s.steps[1]? = some first ∧ s.ReadsHeredoc 1 first ∧
      Heredoc.IsHeader (ascii "<<<\"E\"\r\n") (ascii "E") ∧
      Heredoc.Closes (ascii "E") (ascii "  E") (ascii "  E.<<<B ")) ∧
    (s.steps[3]? = some second ∧ s.ReadsHeredoc 3 second) ∧
    s.steps[6]? = some last ∧ s.ReadsHeredoc 6 last := by
  intro s first second last
  have hfirst : s.steps[1]? = some first := by decide +kernel
  have hsecond : s.steps[3]? = some second := by decide +kernel
  have hlast : s.steps[6]? = some last := by decide +kernel
  refine ⟨⟨hfirst, ?_, ?_, ?_⟩, ⟨hsecond, ?_⟩, hlast, ?_⟩
  · exact s.heredocs 1 first hfirst (opened_of_modeAfter (by decide +kernel)) (by decide +kernel)
  · exact ⟨[], [Byte.doubleQuote], [Byte.cr], by decide +kernel, nofun, by decide +kernel,
      ⟨_, [], rfl, by decide +kernel, nofun⟩, by decide +kernel⟩
  · exact ⟨ascii "  ", ascii ".<<<B ", by decide +kernel, by decide +kernel, by decide +kernel,
      by decide +kernel⟩
  · exact s.heredocs 3 second hsecond (opened_of_modeAfter (by decide +kernel)) (by decide +kernel)
  · exact s.heredocs 6 last hlast (opened_of_modeAfter (by decide +kernel)) (by decide +kernel)

end Source

end TextDomain
