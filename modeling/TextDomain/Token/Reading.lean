import TextDomain.Token.Trivia
import TextDomain.Token.Markup
import TextDomain.Token.Name
import TextDomain.Token.Number
import TextDomain.Token.Quoted
import TextDomain.Token.Heredoc
import TextDomain.Token.Symbol

/-!
# Reading one token

`Mode.read` reads the token at the start of a text: what is skipped before it and the token itself.
Nothing but the mode and the text decides what is read. Markup skips nothing (`markupLexeme`); code
skips trivia and then takes the first class of tokens that fits (`codeLexeme`). Only the end of the
text gives an empty token (`text_ne_nil_of_read`), so reading on always ends.
-/

namespace TextDomain

/-- What is read in one go: the skipped pieces and the token after them. -/
structure Reading where
  gap : List Trivia
  lexeme : Lexeme
  deriving DecidableEq, Repr

namespace Reading

/-- The length of the skipped pieces. -/
def gapSize (r : Reading) : Nat :=
  (Trivia.join r.gap).length

/-- The length of everything read. -/
def size (r : Reading) : Nat :=
  r.gapSize + r.lexeme.text.length

end Reading

/-- The token at the start of markup. -/
def markupLexeme (s : Bytes) : Lexeme :=
  match s with
  | [] => ⟨.eof, []⟩
  | _ :: _ =>
    match Markup.openTag? s with
    | some tag => ⟨.openTag, tag⟩
    | none => ⟨.inlineHtml, Markup.html s⟩

/-- The token at the start of code, trivia aside. -/
def codeLexeme (s : Bytes) : Lexeme :=
  match s with
  | [] => ⟨.eof, []⟩
  | c :: t =>
    ((Markup.closeTag? s).map (Lexeme.mk .closeTag) <|>
      (Name.variableName? s).map (Lexeme.mk .var) <|>
      (Name.identifier? s).map (Lexeme.mk .identifier) <|>
      (Number.number? s).map (Lexeme.mk .number) <|>
      Quoted.quoted? s <|>
      Heredoc.heredoc? s).getD (Symbol.symbol c t)

/-- Reads one token. -/
def Mode.read (mode : Mode) (s : Bytes) : Reading :=
  match mode with
  | .markup => ⟨[], markupLexeme s⟩
  | .code =>
    let gap := Trivia.run s
    ⟨gap, codeLexeme (s.drop (Trivia.join gap).length)⟩

/-! ## Every token but the last has text -/

namespace Markup

theorem openTag?_ne_some_nil (s : Bytes) : openTag? s ≠ some [] := by
  unfold openTag?
  split
  · rename_i h
    cases s with
    | nil => simp [ascii] at h
    | cons c s => simp
  · split
    · rename_i h
      cases s with
      | nil => simp [ascii] at h
      | cons c s => simp
    · simp

theorem html_ne_nil {c : UInt8} {s : Bytes} (h : openTag? (c :: s) = none) :
    html (c :: s) ≠ [] := by
  simp [html, h]

theorem closeTag?_ne_some_nil (s : Bytes) : closeTag? s ≠ some [] := by
  unfold closeTag?
  cases Bytes.after? (ascii "?>") s with
  | none => simp
  | some rest => simp [ascii]

end Markup

namespace Name

theorem variableName?_ne_some_nil (s : Bytes) : variableName? s ≠ some [] := by
  cases s with
  | nil => simp [variableName?]
  | cons c s =>
    rw [variableName?]
    split <;> simp

theorem identifier?_ne_some_nil (s : Bytes) : identifier? s ≠ some [] := by
  cases s with
  | nil => simp [identifier?]
  | cons c s =>
    simp only [identifier?]
    split
    · rename_i h
      have h' : Byte.isNameByte c = true ∨
          (c = Byte.backslash ∧ Bytes.startsIn Byte.isNameStart s = true) :=
        h.imp_left fun hc => by simp [Byte.isNameByte, hc]
      simp [qualified, h']
    · simp

end Name

namespace Number

theorem decimalNumber_ne_nil {s : Bytes} (h : startsNumber s = true) : decimalNumber s ≠ [] := by
  cases s with
  | nil => simp [startsNumber] at h
  | cons c s =>
    intro hnil
    simp only [decimalNumber, List.append_eq_nil_iff] at hnil
    obtain ⟨⟨hwhole, hpoint⟩, -⟩ := hnil
    simp only [startsNumber, Bool.or_eq_true, Bool.and_eq_true, beq_iff_eq] at h
    rcases h with hc | ⟨rfl, hs⟩
    · simp [digits, hc] at hwhole
    · rw [hwhole] at hpoint
      simp [fraction, hs] at hpoint

theorem number?_ne_some_nil (s : Bytes) : number? s ≠ some [] := by
  unfold number?
  split
  · simp
  · rename_i hs
    split
    · cases s with
      | nil => simp [startsNumber] at hs
      | cons c s => simp
    · simpa using decimalNumber_ne_nil (by simpa using hs)

end Number

namespace Quoted

theorem text_ne_nil {s : Bytes} {l : Lexeme} (h : quoted? s = some l) : l.text ≠ [] := by
  cases s with
  | nil => simp [quoted?] at h
  | cons c s =>
    rw [quoted?] at h
    split at h
    · split at h <;> simp only [Option.some.injEq] at h <;> simp [← h]
    · simp at h

end Quoted

namespace Heredoc

theorem text_ne_nil_of_header? {s : Bytes} {header : Header} (h : header? s = some header) :
    header.text ≠ [] := by
  simp only [header?, Option.bind_eq_bind, Option.bind_eq_some_iff] at h
  obtain ⟨_, -, ⟨_, _⟩, -, h⟩ := h
  split at h
  · simp only [Option.some.injEq] at h
    simp [← h, ascii]
  · simp at h

theorem text_ne_nil {s : Bytes} {l : Lexeme} (hs : s ≠ []) (h : heredoc? s = some l) :
    l.text ≠ [] := by
  obtain ⟨header, hh, hl⟩ := Option.map_eq_some_iff.mp h
  split at hl
  · simp [← hl, text_ne_nil_of_header? hh]
  · simpa [← hl] using hs

end Heredoc

theorem Symbol.text_ne_nil (c : UInt8) (s : Bytes) : (symbol c s).text ≠ [] := by
  unfold symbol
  split
  · simp
  · split
    · simp
    · split
      · simp
      · cases h : operators.find? (·.isPrefixOf (c :: s)) with
        | none => simp
        | some text =>
          have hmem := List.mem_of_find?_eq_some h
          have hall : ∀ t ∈ operators, t ≠ [] := by decide
          simpa using hall text hmem

theorem text_ne_nil_of_markupLexeme {s : Bytes} (hs : s ≠ []) : (markupLexeme s).text ≠ [] := by
  cases s with
  | nil => exact absurd rfl hs
  | cons c s =>
    unfold markupLexeme
    cases h : Markup.openTag? (c :: s) with
    | none => simpa using Markup.html_ne_nil h
    | some tag =>
      intro htag
      simp only at htag
      exact Markup.openTag?_ne_some_nil _ (h.trans (congrArg some htag))

theorem text_ne_nil_of_codeLexeme {s : Bytes} (hs : s ≠ []) : (codeLexeme s).text ≠ [] := by
  cases s with
  | nil => exact absurd rfl hs
  | cons c s =>
    unfold codeLexeme
    simp only
    cases h1 : Markup.closeTag? (c :: s) with
    | some t => intro ht; exact Markup.closeTag?_ne_some_nil _ (h1.trans (congrArg some ht))
    | none =>
    cases h2 : Name.variableName? (c :: s) with
    | some t => intro ht; exact Name.variableName?_ne_some_nil _ (h2.trans (congrArg some ht))
    | none =>
    cases h3 : Name.identifier? (c :: s) with
    | some t => intro ht; exact Name.identifier?_ne_some_nil _ (h3.trans (congrArg some ht))
    | none =>
    cases h4 : Number.number? (c :: s) with
    | some t => intro ht; exact Number.number?_ne_some_nil _ (h4.trans (congrArg some ht))
    | none =>
    cases h5 : Quoted.quoted? (c :: s) with
    | some l => exact Quoted.text_ne_nil h5
    | none =>
    cases h6 : Heredoc.heredoc? (c :: s) with
    | some l => exact Heredoc.text_ne_nil hs h6
    | none => exact Symbol.text_ne_nil c s

theorem text_ne_nil_of_read {mode : Mode} {s : Bytes} (h : (mode.read s).lexeme.kind ≠ .eof) :
    (mode.read s).lexeme.text ≠ [] := by
  cases mode with
  | markup =>
    refine text_ne_nil_of_markupLexeme fun hs => h ?_
    simp [Mode.read, hs, markupLexeme]
  | code =>
    refine text_ne_nil_of_codeLexeme fun hs => h ?_
    simp only [Mode.read]
    rw [hs]
    rfl

theorem ne_nil_of_read {mode : Mode} {s : Bytes} (h : (mode.read s).lexeme.kind ≠ .eof) :
    s ≠ [] := by
  rintro rfl
  cases mode with
  | markup => exact h rfl
  | code => exact h (by simp [Mode.read, codeLexeme])

/-- A token that is not the end leaves less to read. -/
theorem length_drop_size_lt {mode : Mode} {s : Bytes} (h : (mode.read s).lexeme.kind ≠ .eof) :
    (s.drop (mode.read s).size).length < s.length := by
  have ht := List.length_pos_iff.mpr (text_ne_nil_of_read h)
  have hs := List.length_pos_iff.mpr (ne_nil_of_read h)
  simp only [List.length_drop, Reading.size]
  omega

end TextDomain
