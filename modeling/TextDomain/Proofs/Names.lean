import TextDomain.Proofs.Heredocs
import TextDomain.Proofs.Tags

/-!
# Names are read whole

An identifier is a qualified name (`IsQualifiedName`), and nothing of a name is left after it
(`EndsName`). Nor is anything of a name left before it: where a name starts, the byte before it is
no dollar sign and no backslash, and it is a name byte only as the end of a number (`SetsApart`).

What that byte is depends on the token or the comment before the name. Each class of tokens is shown
either to end with a byte that is in no name or to leave no start of a name
(`Lexeme.LeavesName`), and the cursor carries this from one step to the next
(`Source.NamesApart.next`).
-/

namespace TextDomain

/-- Names joined by single backslashes, possibly with one more before the first. -/
def IsQualifiedName (text : Bytes) : Prop :=
  ∃ lead names, text = lead ++ [Byte.backslash].intercalate names ∧
    lead ∈ [[], [Byte.backslash]] ∧ names ≠ [] ∧ ∀ name ∈ names, Name.IsSimple name

/-- No name goes on with `rest`: it starts neither with a name byte nor with a backslash and the
start of a name. -/
def EndsName (rest : Bytes) : Prop :=
  Bytes.startsIn Byte.isNameByte rest = false ∧
    ¬ (rest.head? = some Byte.backslash ∧ Bytes.startsIn Byte.isNameStart rest.tail = true)

/-- The byte `b` may stand before a name that it is no part of. If it is a name byte, it ends a
number. -/
def SetsApart (number : Prop) (b : UInt8) : Prop :=
  b ≠ Byte.dollar ∧ b ≠ Byte.backslash ∧ (Byte.isNameByte b = true → number)

/-- Where a name starts after a token, the last byte of the token is no part of it. -/
def Lexeme.LeavesName (l : Lexeme) (rest : Bytes) : Prop :=
  Bytes.startsIn Byte.isNameStart rest = true →
    ∀ b ∈ l.text.getLast?, SetsApart (l.kind = .number) b

/-! ## Bytes of names -/

namespace Byte

theorem isNameByte_of_isNameStart {c : UInt8} (h : isNameStart c = true) : isNameByte c = true := by
  rw [isNameByte, h, Bool.true_or]

/-- A byte that no variable and no qualified name holds. -/
def inNoName (c : UInt8) : Bool :=
  c != dollar && c != backslash && !isNameByte c

end Byte

theorem Bytes.startsIn_isNameStart {rest : Bytes} (h : startsIn Byte.isNameByte rest = false) :
    startsIn Byte.isNameStart rest = false := by
  cases rest with
  | nil => rfl
  | cons c rest =>
    refine Bool.eq_false_iff.mpr fun hc => ?_
    rw [startsIn_cons, Byte.isNameByte_of_isNameStart hc] at h
    cases h

theorem Bytes.startsIn_append {cls : UInt8 → Bool} {a : Bytes} (h : startsIn cls a = true)
    (b : Bytes) : startsIn cls (a ++ b) = true := by
  cases a with
  | nil => cases h
  | cons c a => exact h

theorem SetsApart.of_inNoName {number : Prop} {b : UInt8} (h : Byte.inNoName b = true) :
    SetsApart number b := by
  simp only [Byte.inNoName, Bool.and_eq_true, bne_iff_ne, Bool.not_eq_true'] at h
  obtain ⟨⟨hdollar, hbackslash⟩, hname⟩ := h
  exact ⟨hdollar, hbackslash, fun htrue => absurd (hname.symm.trans htrue) Bool.false_ne_true⟩

theorem SetsApart.imp {p q : Prop} {b : UInt8} (hpq : p → q) (h : SetsApart p b) : SetsApart q b :=
  ⟨h.1, h.2.1, fun hname => hpq (h.2.2 hname)⟩

namespace Lexeme

variable {l : Lexeme} {rest : Bytes}

theorem LeavesName.of_startsIn (h : Bytes.startsIn Byte.isNameStart rest = false) :
    l.LeavesName rest :=
  fun hstart => absurd (h.symm.trans hstart) Bool.false_ne_true

theorem LeavesName.of_getLast? {b : UInt8} (hlast : l.text.getLast? = some b)
    (hb : Byte.inNoName b = true) : l.LeavesName rest := by
  intro _ c hc
  obtain rfl : b = c := Option.some.inj (hlast.symm.trans hc)
  exact SetsApart.of_inNoName hb

end Lexeme

/-! ## Identifiers and variables -/

namespace Name

/-- A qualified name starts with a run of name bytes. -/
theorem qualified_eq (s : Bytes) : qualified s = s.takeWhile Byte.isNameByte ++
    qualified (s.drop (s.takeWhile Byte.isNameByte).length) := by
  induction s with
  | nil => rfl
  | cons c s ih =>
    by_cases hc : Byte.isNameByte c = true
    · rw [qualified, if_pos (Or.inl hc), List.takeWhile_cons_of_pos hc, List.length_cons,
        List.drop_succ_cons, List.cons_append, ← ih]
    · rw [List.takeWhile_cons_of_neg hc]
      rfl

theorem qualified_backslash {s : Bytes} (h : Bytes.startsIn Byte.isNameStart s = true) :
    qualified (Byte.backslash :: s) = Byte.backslash :: qualified s := by
  rw [qualified, if_pos (Or.inr ⟨rfl, h⟩)]

theorem qualified_of_endsName {rest : Bytes} (h : EndsName rest) : qualified rest = [] := by
  cases rest with
  | nil => rfl
  | cons c rest =>
    obtain ⟨hname, hbackslash⟩ := h
    rw [qualified, if_neg]
    rintro (hc | ⟨rfl, hstart⟩)
    · exact absurd (hname.symm.trans hc) Bool.false_ne_true
    · exact hbackslash ⟨rfl, hstart⟩

/-- What follows a run of name bytes ends the name, or starts its next part. -/
theorem endsName_or_backslash {rest : Bytes} (h : Bytes.startsIn Byte.isNameByte rest = false) :
    EndsName rest ∨ ∃ more, rest = Byte.backslash :: more ∧
      Bytes.startsIn Byte.isNameStart more = true := by
  by_cases hnext : rest.head? = some Byte.backslash ∧
      Bytes.startsIn Byte.isNameStart rest.tail = true
  · obtain ⟨more, rfl⟩ := List.head?_eq_some_iff.mp hnext.1
    exact Or.inr ⟨more, rfl, hnext.2⟩
  · exact Or.inl ⟨h, hnext⟩

/-- From the start of a name on, names joined by backslashes are read. -/
theorem exists_names {s : Bytes} (h : Bytes.startsIn Byte.isNameStart s = true) :
    ∃ names, qualified s = [Byte.backslash].intercalate names ∧ names ≠ [] ∧
      ∀ name ∈ names, Name.IsSimple name := by
  have hfirst := Name.isSimple_takeWhile h
  rw [qualified_eq]
  rcases endsName_or_backslash (Bytes.startsIn_drop_takeWhile Byte.isNameByte s) with
    hend | ⟨more, hmore, hstart⟩
  · refine ⟨[s.takeWhile Byte.isNameByte], ?_, by simp, by simpa using hfirst⟩
    rw [qualified_of_endsName hend, List.append_nil, List.intercalate_singleton]
  · have hlt : more.length < s.length := by
      have hlength := congrArg List.length hmore
      rw [List.length_drop, List.length_cons] at hlength
      omega
    obtain ⟨names, hnames, hne, hall⟩ := exists_names hstart
    refine ⟨s.takeWhile Byte.isNameByte :: names, ?_, by simp, ?_⟩
    · obtain ⟨name, names, rfl⟩ := List.exists_cons_of_ne_nil hne
      rw [hmore, qualified_backslash hstart, hnames, List.intercalate_cons_cons]
      simp
    · intro name hname
      rcases List.mem_cons.mp hname with rfl | hname
      · exact hfirst
      · exact hall name hname
termination_by s.length

theorem endsName_drop_qualified (s : Bytes) : EndsName (s.drop (qualified s).length) := by
  induction s with
  | nil => exact ⟨rfl, by simp⟩
  | cons c s ih =>
    rw [qualified]
    split
    · exact ih
    · rename_i hstop
      refine ⟨?_, fun hnext => hstop (Or.inr ?_)⟩
      · exact Bool.eq_false_iff.mpr fun hc => hstop (Or.inl hc)
      · exact ⟨Option.some.inj hnext.1, hnext.2⟩

theorem eq_qualified_of_identifier? {s name : Bytes} (h : identifier? s = some name) :
    name = qualified s ∧ (Bytes.startsIn Byte.isNameStart s = true ∨
      ∃ t, s = Byte.backslash :: t ∧ Bytes.startsIn Byte.isNameStart t = true) := by
  unfold identifier? at h
  split at h
  · cases h
  · rename_i c t
    split at h
    · rename_i hstart
      refine ⟨(Option.some.inj h).symm, hstart.imp id ?_⟩
      rintro ⟨rfl, ht⟩
      exact ⟨t, rfl, ht⟩
    · cases h

theorem identifier?_of_kind {s : Bytes} (h : (codeLexeme s).kind = .identifier) :
    identifier? s = some (codeLexeme s).text := by
  cases s with
  | nil => cases h
  | cons c s =>
    revert h
    exact codeLexeme_kind_cases
      (motive := fun l => l.kind = .identifier → identifier? (c :: s) = some l.text)
      (by simp) (by simp) (fun _ hname _ => hname) (by simp)
      fun _ hkind h => absurd h (ne_of_mem_of_not_mem hkind (by decide))

theorem isQualifiedName_of_identifier? {s name : Bytes} (h : identifier? s = some name) :
    IsQualifiedName name := by
  obtain ⟨rfl, hstart | ⟨t, rfl, ht⟩⟩ := eq_qualified_of_identifier? h
  · obtain ⟨names, hnames, hne, hall⟩ := exists_names hstart
    exact ⟨[], names, hnames, by simp, hne, hall⟩
  · obtain ⟨names, hnames, hne, hall⟩ := exists_names ht
    exact ⟨[Byte.backslash], names, by rw [qualified_backslash ht, hnames]; rfl, by simp, hne, hall⟩

theorem endsName_of_identifier? {s name : Bytes} (h : identifier? s = some name) :
    EndsName (s.drop name.length) := by
  obtain ⟨rfl, -⟩ := eq_qualified_of_identifier? h
  exact endsName_drop_qualified s

theorem startsIn_drop_of_variableName? {s name : Bytes} (h : variableName? s = some name) :
    Bytes.startsIn Byte.isNameByte (s.drop name.length) = false := by
  unfold variableName? at h
  split at h
  · cases h
  · rename_i c s
    split at h
    · obtain rfl := Option.some.inj h
      exact Bytes.startsIn_drop_takeWhile Byte.isNameByte s
    · cases h

end Name

/-! ## Numbers -/

namespace Number

/-- The bytes of a number: name bytes, points and signs. -/
def isNumberByte (c : UInt8) : Bool :=
  Byte.isNameByte c || [Byte.dot, Byte.plus, Byte.minus].contains c

theorem isNumberByte_of_isNameByte {c : UInt8} (h : Byte.isNameByte c = true) :
    isNumberByte c = true := by
  rw [isNumberByte, h, Bool.true_or]

theorem isNumberByte_of_isDigit {c : UInt8} (h : Byte.isDigit c = true) : isNumberByte c = true :=
  isNumberByte_of_isNameByte (by rw [Byte.isNameByte, h, Bool.or_true])

theorem isNumberByte_of_mem_digits {s : Bytes} {b : UInt8} (h : b ∈ digits s) :
    isNumberByte b = true := by
  have hb := List.mem_takeWhile_imp h
  rw [Bool.or_eq_true, beq_iff_eq] at hb
  rcases hb with hb | rfl
  · exact isNumberByte_of_isDigit hb
  · decide

theorem isNumberByte_of_mem_fraction {s : Bytes} {b : UInt8} (h : b ∈ fraction s) :
    isNumberByte b = true := by
  unfold fraction at h
  split at h
  · cases h
  · split at h
    · split at h
      · rcases List.mem_cons.mp h with rfl | h
        · decide
        · exact isNumberByte_of_mem_digits h
      · obtain rfl := List.mem_singleton.mp h
        decide
    · cases h

theorem isNumberByte_of_mem_sign {s : Bytes} {b : UInt8} (h : b ∈ sign s) :
    isNumberByte b = true := by
  unfold sign at h
  split at h
  · cases h
  · split at h
    · rename_i hsign
      obtain rfl := List.mem_singleton.mp h
      rcases hsign.1 with rfl | rfl <;> decide
    · cases h

theorem isNumberByte_of_mem_exponent {s : Bytes} {b : UInt8} (h : b ∈ exponent s) :
    isNumberByte b = true := by
  unfold exponent at h
  split at h
  · cases h
  · split at h
    · rename_i hmark
      dsimp only at h
      split at h
      · cases h
      · rcases List.mem_cons.mp h with rfl | h
        · rcases hmark with rfl | rfl <;> decide
        · rcases List.mem_append.mp h with h | h
          · exact isNumberByte_of_mem_sign h
          · exact isNumberByte_of_isDigit (List.mem_takeWhile_imp h)
    · cases h

theorem isNumberByte_of_mem_decimalNumber {s : Bytes} {b : UInt8} (h : b ∈ decimalNumber s) :
    isNumberByte b = true := by
  rcases List.mem_append.mp h with h | h
  · rcases List.mem_append.mp h with h | h
    · exact isNumberByte_of_mem_digits h
    · exact isNumberByte_of_mem_fraction h
  · exact isNumberByte_of_mem_exponent h

/-- A number with a base mark is made of name bytes. -/
theorem isNameByte_of_mem_take_two {s : Bytes} {b : UInt8} (hzero : s.head? = some Byte.zero)
    (hmark : Bytes.startsIn isBaseMark (s.drop 1) = true) (h : b ∈ s.take 2) :
    Byte.isNameByte b = true := by
  have hmarks : (ascii "xXbBoO").all Byte.isNameByte = true := by decide
  match s, hzero, hmark, h with
  | [_], _, hmark, _ => cases hmark
  | _ :: c :: _, rfl, hmark, h =>
    rcases List.mem_pair.mp h with rfl | rfl
    · decide
    · exact List.all_eq_true.mp hmarks b (List.contains_iff_mem.mp hmark)

theorem isNumberByte_of_number? {s text : Bytes} (h : number? s = some text) :
    ∀ b ∈ text, isNumberByte b = true := by
  intro b hb
  unfold number? at h
  split at h
  · cases h
  · split at h <;> obtain rfl := Option.some.inj h
    · rename_i hbase
      rcases List.mem_append.mp hb with hb | hb
      · exact isNumberByte_of_isNameByte (isNameByte_of_mem_take_two hbase.1 hbase.2 hb)
      · exact isNumberByte_of_isNameByte (List.mem_takeWhile_imp hb)
    · exact isNumberByte_of_mem_decimalNumber hb

theorem leavesName_of_number? {s text rest : Bytes} (h : number? s = some text) :
    (Lexeme.mk .number text).LeavesName rest := by
  intro _ b hb
  have hbyte := isNumberByte_of_number? h b (List.mem_of_getLast? hb)
  refine ⟨?_, ?_, fun _ => rfl⟩ <;> rintro rfl <;> exact absurd hbyte (by decide)

end Number

/-! ## Strings, heredocs and symbols -/

theorem Quoted.leavesName_of_quoted? {s : Bytes} {l : Lexeme} (h : quoted? s = some l) :
    l.LeavesName (s.drop l.text.length) := by
  obtain ⟨quote, rest, rfl, hquote, rfl | ⟨body, hbody, rfl⟩⟩ := cases_of_quoted? h
  · rw [List.drop_length]
    exact .of_startsIn rfl
  · obtain ⟨inner, rfl⟩ := body?_eq_append quote hbody
    refine .of_getLast? (b := quote) (by rw [← List.cons_append, List.getLast?_concat]) ?_
    simp only [isQuote, Bool.or_eq_true, beq_iff_eq] at hquote
    rcases hquote with (rfl | rfl) | rfl <;> decide

namespace Heredoc

/-- After the label that closes a heredoc there is no name byte. -/
theorem startsIn_drop_of_marker? {label line marker : Bytes}
    (h : marker? label line = some marker) :
    Bytes.startsIn Byte.isNameByte (line.drop marker.length) = false := by
  unfold marker? at h
  dsimp only at h
  split at h
  · rename_i rest hrest
    split at h
    · cases h
    · rename_i hname
      obtain rfl := Option.some.inj h
      rw [List.length_append, ← List.drop_drop, Bytes.eq_of_after? hrest, List.drop_left]
      exact Bool.eq_false_iff.mpr hname
  · cases h

theorem startsIn_drop_of_closing? (label : Bytes) : ∀ {fresh : Bool} {s body : Bytes},
    closing? label fresh s = some body →
      Bytes.startsIn Byte.isNameByte (s.drop body.length) = false
  | fresh, [], body, h => by
    rw [List.drop_nil]
    rfl
  | fresh, c :: s, body, h => by
    rw [closing?] at h
    split at h
    · rename_i marker hmarker
      obtain rfl := Option.some.inj h
      split at hmarker
      · exact startsIn_drop_of_marker? hmarker
      · cases hmarker
    · obtain ⟨inner, hinner, rfl⟩ := Option.map_eq_some_iff.mp h
      exact startsIn_drop_of_closing? (s := s) label hinner

theorem leavesName_of_heredoc? {s : Bytes} {l : Lexeme} (h : heredoc? s = some l) :
    l.LeavesName (s.drop l.text.length) := by
  refine .of_startsIn ?_
  obtain ⟨header, -, rfl | ⟨body, hbody, rfl⟩⟩ := cases_of_heredoc? h
  · rw [List.drop_length]
    rfl
  · rw [List.length_append, ← List.drop_drop]
    exact Bytes.startsIn_isNameStart (startsIn_drop_of_closing? _ hbody)

end Heredoc

namespace Symbol

theorem inNoName_of_operators :
    ∀ text ∈ operators, ∀ b ∈ text.getLast?, Byte.inNoName b = true := by
  have hall : operators.all (·.getLast?.all Byte.inNoName) = true := by decide
  intro text htext b hb
  have hlast := List.all_eq_true.mp hall text htext
  rwa [Option.mem_def.mp hb] at hlast

/-- A byte that starts no other token is in no name, if a name starts after it. -/
theorem inNoName_of_none {c : UInt8} {s : Bytes} (hvar : Name.variableName? (c :: s) = none)
    (hname : Name.identifier? (c :: s) = none) (hnumber : Number.number? (c :: s) = none)
    (hstart : Bytes.startsIn Byte.isNameStart s = true) : Byte.inNoName c = true := by
  have hdollar : c ≠ Byte.dollar := by
    rintro rfl
    rw [Name.variableName?, if_pos ⟨rfl, hstart⟩] at hvar
    cases hvar
  have hbackslash : c ≠ Byte.backslash := by
    rintro rfl
    simp only [Name.identifier?, hstart, and_self, or_true, if_true] at hname
    cases hname
  have hletter : Byte.isNameStart c = false := by
    refine Bool.eq_false_iff.mpr fun hc => ?_
    simp only [Name.identifier?, hc, true_or, if_true] at hname
    cases hname
  have hdigit : Byte.isDigit c = false := by
    refine Bool.eq_false_iff.mpr fun hc => ?_
    have hstarts : Number.startsNumber (c :: s) = true := by
      rw [Number.startsNumber, hc, Bool.true_or]
    rw [Number.number?, if_neg (not_not.mpr hstarts)] at hnumber
    split at hnumber <;> cases hnumber
  simp [Byte.inNoName, Byte.isNameByte, hdollar, hbackslash, hletter, hdigit]

theorem leavesName_symbol {c : UInt8} {s : Bytes} (hvar : Name.variableName? (c :: s) = none)
    (hname : Name.identifier? (c :: s) = none) (hnumber : Number.number? (c :: s) = none) :
    (symbol c s).LeavesName ((c :: s).drop (symbol c s).text.length) := by
  unfold symbol
  split
  · rename_i hc
    exact .of_getLast? (b := c) rfl (by rw [hc]; decide)
  · split
    · rename_i hc
      exact .of_getLast? (b := c) rfl (by rw [hc]; decide)
    · split
      · rename_i hc
        exact .of_getLast? (b := c) rfl (by rw [hc]; decide)
      · cases hfind : operators.find? (·.isPrefixOf (c :: s)) with
        | some text =>
          intro _ b hb
          have hmem := List.mem_of_find?_eq_some hfind
          exact .of_inNoName (inNoName_of_operators text hmem b hb)
        | none =>
          intro hstart b hb
          obtain rfl : c = b := Option.some.inj hb
          exact .of_inNoName (inNoName_of_none hvar hname hnumber hstart)

end Symbol

/-! ## Tokens and gaps -/

theorem leavesName_codeLexeme (s : Bytes) :
    (codeLexeme s).LeavesName (s.drop (codeLexeme s).text.length) := by
  cases s with
  | nil => exact .of_startsIn rfl
  | cons c s =>
    refine codeLexeme_cases (motive := fun l => l.LeavesName ((c :: s).drop l.text.length))
      (fun tag h => ?_) (fun name h => ?_) (fun name h => ?_) (fun text h => ?_)
      (fun l h => Quoted.leavesName_of_quoted? h) (fun l h => Heredoc.leavesName_of_heredoc? h)
      fun hvar hname hnumber => Symbol.leavesName_symbol hvar hname hnumber
    · obtain ⟨rest, -, rfl | rfl | ⟨rfl, -⟩⟩ := Markup.isCloseTag_of_closeTag? h
      · exact .of_getLast? (b := Byte.lf) rfl (by decide)
      · exact .of_getLast? (b := Byte.lf) rfl (by decide)
      · exact .of_getLast? (b := Byte.greater) rfl (by decide)
    · exact .of_startsIn (Bytes.startsIn_isNameStart (Name.startsIn_drop_of_variableName? h))
    · exact .of_startsIn (Bytes.startsIn_isNameStart (Name.endsName_of_identifier? h).1)
    · exact Number.leavesName_of_number? h

theorem startsIn_of_isOpenTag {tag rest : Bytes} (h : IsOpenTag tag rest) (after : Bytes) :
    Bytes.startsIn Byte.isNameStart (tag ++ after) = false := by
  rcases h with rfl | ⟨⟨p, h, q, rfl, -⟩, -⟩ <;> rfl

theorem leavesName_markupLexeme (s : Bytes) :
    (markupLexeme s).LeavesName (s.drop (markupLexeme s).text.length) := by
  obtain ⟨rfl, -⟩ | ⟨tag, htag, hl⟩ | ⟨-, -, hl⟩ := Markup.markupLexeme_cases s
  · exact .of_startsIn rfl
  · rw [hl]
    obtain ⟨rest, rfl, rfl | ⟨-, hrest⟩⟩ := Markup.openTag?_eq_some_iff.mp htag
    · exact .of_getLast? (b := Byte.equals) rfl (by decide)
    · refine .of_startsIn ?_
      rw [List.drop_left]
      cases rest with
      | nil => rfl
      | cons c rest =>
        have hplain : [Byte.nul, Byte.space, Byte.tab, Byte.cr, Byte.lf].all
            (!Byte.isNameStart ·) = true := by decide
        exact (Bool.not_eq_true' _).mp (List.all_eq_true.mp hplain c (hrest c rfl))
  · rw [hl]
    refine .of_startsIn ?_
    rcases Markup.drop_length_html s with hend | ⟨tag, htag⟩
    · rw [hend]
      rfl
    · obtain ⟨rest, hrest, hopen⟩ := Markup.openTag?_eq_some_iff.mp htag
      rw [hrest]
      exact startsIn_of_isOpenTag hopen rest

theorem leavesName_read (mode : Mode) (s : Bytes) :
    (mode.read s).lexeme.LeavesName (s.drop (mode.read s).size) := by
  rw [Reading.size, ← List.drop_drop]
  cases mode with
  | markup => exact leavesName_markupLexeme s
  | code => exact leavesName_codeLexeme _

namespace Trivia

theorem inNoName_of_fits {piece : Trivia} {rest : Bytes} (h : piece.Fits rest)
    (hstart : Bytes.startsIn Byte.isNameStart rest = true) :
    ∀ b ∈ piece.text.getLast?, Byte.inNoName b = true := by
  intro b hb
  cases piece with
  | space c =>
    obtain rfl : c = b := Option.some.inj hb
    have hspaces : [Byte.space, Byte.tab, Byte.cr, Byte.lf, Byte.ff, Byte.vt].all
        Byte.inNoName = true := by decide
    exact List.all_eq_true.mp hspaces c h
  | lineComment text =>
    -- A line comment goes on to a line feed, a close tag or the end, where no name starts.
    obtain ⟨-, -, -, -, -, -, rfl | hlf | ⟨more, rfl⟩⟩ := h
    · cases hstart
    · obtain ⟨more, rfl⟩ := List.head?_eq_some_iff.mp hlf
      cases hstart
    · cases hstart
  | blockComment text =>
    obtain ⟨body, rfl, -⟩ := h
    have hlast : (ascii "/*" ++ body ++ ascii "*/").getLast? = some Byte.slash := by
      rw [show ascii "*/" = [Byte.star] ++ [Byte.slash] from rfl, ← List.append_assoc,
        List.getLast?_concat]
    obtain rfl : Byte.slash = b := Option.some.inj (hlast.symm.trans hb)
    decide
  | unclosed text =>
    rw [h.2] at hstart
    cases hstart

/-- Where a name starts after skipped pieces, the byte before it is in no name. -/
theorem AllFit.inNoName {rest : Bytes} (hstart : Bytes.startsIn Byte.isNameStart rest = true) :
    ∀ {pieces : List Trivia}, AllFit rest pieces →
      ∀ b ∈ (join pieces).getLast?, Byte.inNoName b = true
  | [], _, b, hb => by cases hb
  | piece :: pieces, ⟨hfits, hall⟩, b, hb => by
    rw [join_cons, List.getLast?_append] at hb
    cases hlast : (join pieces).getLast? with
    | some d =>
      rw [hlast, Option.some_or] at hb
      exact hall.inNoName hstart b (hlast.trans hb)
    | none =>
      have hnil : join pieces = [] := List.getLast?_eq_none_iff.mp hlast
      rw [hlast, Option.none_or] at hb
      rw [hnil, List.nil_append] at hfits
      exact inNoName_of_fits hfits hstart b hb

end Trivia

/-! ## Names of a source -/

namespace Source

variable {s : Source} {i : Nat} {c : Cursor}

/-- The byte before a token is no part of a name that starts with the token. If it is a name byte,
the token before, the last of `before`, is a number that ends there. -/
def NoNameBefore (s : Source) (before : List Token) (offset : Nat) : Prop :=
  ∀ b ∈ (s.content.take offset).getLast?,
    SetsApart (∃ u ∈ before.getLast?, u.kind = .number ∧ u.stop = offset) b

/-- An identifier of a source, at a position among its tokens, is a whole name. -/
structure WholeName (s : Source) (i : Nat) (t : Token) : Prop where
  form : IsQualifiedName t.text
  after : EndsName (s.content.drop t.stop)
  before : Bytes.startsIn Byte.isNameStart t.text = true → s.NoNameBefore (s.tokens.take i) t.offset

/-- Where the cursor stands at the start of a name, nothing of the name is behind it. -/
def NamesApart (s : Source) (done : List Step) (c : Cursor) : Prop :=
  s.Reaches done c ∧ (Bytes.startsIn Byte.isNameStart c.rest = true →
    s.NoNameBefore (done.map Step.token) c.offset)

theorem namesApart_begin (s : Source) : s.NamesApart [] (Cursor.begin s.content) :=
  ⟨s.reaches_begin, fun _ _ hb => by cases hb⟩

/-- What is before the next cursor is the token of the step. -/
theorem NamesApart.next {done : List Step} (h : s.NamesApart done c) :
    s.NamesApart (done ++ [c.step]) c.next := by
  refine ⟨h.1.next, fun hstart b hb => ?_⟩
  have htext : c.step.lexeme.text ≠ [] := by
    refine text_ne_nil_of_read fun heof => ?_
    rw [Cursor.rest_next_of_eof heof] at hstart
    cases hstart
  rw [Cursor.take_offset_next h.1.drop_offset, Reading.text, ← List.append_assoc] at hb
  have hlast : b ∈ c.step.lexeme.text.getLast? := by
    rwa [← List.getLast?_append_of_ne_nil _ htext]
  refine (leavesName_read c.mode c.rest hstart b hlast).imp fun hkind => ?_
  refine ⟨c.step.token, ?_, hkind, c.step.stop_token⟩
  rw [List.map_append, List.map_singleton, List.getLast?_concat]
  rfl

theorem exists_namesApart {t : Token} (h : s.tokens[i]? = some t) :
    ∃ c, s.NamesApart (s.steps.take i) c ∧ c.step.token = t := by
  rw [tokens, List.getElem?_map, Option.map_eq_some_iff] at h
  obtain ⟨step, hstep, rfl⟩ := h
  obtain ⟨c, hc, rfl, -⟩ :=
    Cursor.exists_of_getElem?_steps (fun _ _ => NamesApart.next) s.namesApart_begin hstep
  exact ⟨c, hc, rfl⟩

/-- Where a token is the start of a name, what stands before it is the end of the gap, or, without
one, the end of the token before. -/
theorem NamesApart.noNameBefore {done : List Step} (h : s.NamesApart done c)
    (hstart : Bytes.startsIn Byte.isNameStart (s.content.drop c.step.start) = true) :
    s.NoNameBefore (done.map Step.token) c.step.start := by
  rw [h.1.drop_start] at hstart
  intro b hb
  rw [Cursor.take_start h.1.drop_offset, List.getLast?_append] at hb
  cases hlast : (Trivia.join c.step.reading.gap).getLast? with
  | some d =>
    rw [hlast, Option.some_or] at hb
    have hgap := (allFit_gap_read c.mode c.rest).inNoName hstart
    exact .of_inNoName (hgap b (hlast.trans hb))
  | none =>
    have hnil : Trivia.join c.step.reading.gap = [] := List.getLast?_eq_none_iff.mp hlast
    have hsize : c.step.reading.gapSize = 0 := congrArg List.length hnil
    have hoffset : c.step.start = c.offset := congrArg (c.offset + ·) hsize
    rw [hlast, Option.none_or] at hb
    rw [hsize, List.drop_zero] at hstart
    rw [hoffset]
    exact h.2 hstart b hb

theorem wholeName_of_kind {t : Token} (ht : s.tokens[i]? = some t) (hkind : t.kind = .identifier) :
    s.WholeName i t := by
  obtain ⟨c, hc, rfl⟩ := exists_namesApart ht
  have hlexeme := hc.1.lexeme_of_code (Cursor.mode_of_kind hkind (by decide))
  have hname : Name.identifier? (s.content.drop c.step.start) = some c.step.lexeme.text := by
    rw [hlexeme]
    refine Name.identifier?_of_kind ?_
    rw [← hlexeme]
    exact hkind
  have htext := hc.1.drop_start_eq_append
  refine ⟨Name.isQualifiedName_of_identifier? hname, ?_, fun hstart => ?_⟩
  · have hend := Name.endsName_of_identifier? hname
    rwa [htext, List.drop_left, ← Step.stop_token] at hend
  · rw [tokens, ← List.map_take]
    refine hc.noNameBefore ?_
    rw [htext]
    exact Bytes.startsIn_append hstart _

/-- A function that takes a text domain has a plain name. -/
theorem isSimple_of_isDomainFunction {name : Bytes} (h : isDomainFunction name = true) :
    Name.IsSimple name := by
  have hnames : ∀ name ∈ domainFunctions, Bytes.startsIn Byte.isNameStart name = true ∧
      name.takeWhile Byte.isNameByte = name := by decide
  obtain ⟨hstart, hwhole⟩ := hnames name (List.contains_iff_mem.mp h)
  rw [← hwhole]
  exact Name.isSimple_takeWhile hstart

/-- Every identifier is a whole name. So the name of a function that takes a text domain is neither
part of a variable or a qualified name nor cut out of a longer name. -/
theorem names_whole (s : Source) (i : Nat) (t : Token) (ht : s.tokens[i]? = some t) :
    (t.kind = .identifier → s.WholeName i t) ∧
    (t.namesDomainFunction = true → t.kind = .identifier ∧ Name.IsSimple t.text ∧
      EndsName (s.content.drop t.stop) ∧ s.NoNameBefore (s.tokens.take i) t.offset) := by
  refine ⟨wholeName_of_kind ht, fun hnames => ?_⟩
  rw [Lexeme.namesDomainFunction, Bool.and_eq_true, beq_iff_eq] at hnames
  obtain ⟨hkind, hfunction⟩ := hnames
  have hwhole := wholeName_of_kind ht hkind
  have hlabel := isSimple_of_isDomainFunction hfunction
  refine ⟨hkind, hlabel, hwhole.after, hwhole.before ?_⟩
  obtain ⟨c, name, htext, hc, -⟩ := hlabel
  rw [htext]
  exact hc

/-- A variable, qualified names, a name after a number and one after a comment. -/
theorem names_whole_after_number :
    let s := Source.mk (ascii "a.php") (ascii "<?php $__(A\\__, \\__, 1esc_html__('b'), /*c*/__)")
    let t : Token := ⟨⟨.identifier, ascii "esc_html__"⟩, 22⟩
    s.tokens[8]? = some t ∧ t.namesDomainFunction = true ∧ s.WholeName 8 t ∧
      Name.IsSimple t.text ∧ EndsName (s.content.drop t.stop) ∧
      s.NoNameBefore (s.tokens.take 8) t.offset ∧
      (s.tokens.filter fun t => t.kind = .identifier).map (·.text) =
        [ascii "A\\__", ascii "\\__", ascii "esc_html__", ascii "__"] := by
  intro s t
  have ht : s.tokens[8]? = some t := by decide +kernel
  have hnames : t.namesDomainFunction = true := by decide
  obtain ⟨hwhole, hfunction⟩ := s.names_whole 8 t ht
  obtain ⟨-, hlabel, hafter, hbefore⟩ := hfunction hnames
  exact ⟨ht, hnames, hwhole rfl, hlabel, hafter, hbefore, by decide +kernel⟩

end Source

end TextDomain
