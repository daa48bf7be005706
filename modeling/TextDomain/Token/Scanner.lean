import TextDomain.Token.Stream

/-!
# Scanning by position

A `Scanner` reads a source by positions in it. It has come to one of them, and remembers the one at
which the token that it is reading started. It looks at single bytes, as far ahead as it needs to;
past the end of the content it sees NUL bytes. It moves on byte by byte, and back again where it
took a byte too much or what looked like a heredoc is none.

`Scanner.next` reads one token, as `Cursor.step` does with what is left of a text. What is wrong
goes on record in the order in which it is found.
-/

namespace TextDomain

/-- A reader that goes by positions in a source. -/
structure Scanner where
  source : Source
  pos : Nat
  /-- Where the token that is being read started. -/
  start : Nat
  mode : Mode
  errors : List LexError
  deriving DecidableEq, Repr

namespace Scanner

/-- The scanner that starts to read a source in a mode. -/
def starting (mode : Mode) (source : Source) : Scanner :=
  ⟨source, 0, 0, mode, []⟩

/-- Before the first token. -/
def begin (source : Source) : Scanner :=
  starting .markup source

/-! ## Bytes -/

/-- The byte `n` bytes ahead. -/
def peekAt (s : Scanner) (n : Nat) : UInt8 :=
  s.source.byteAt (s.pos + n)

def peek (s : Scanner) : UInt8 :=
  s.peekAt 0

def atEnd (s : Scanner) : Bool :=
  decide (s.source.content.length ≤ s.pos)

/-- The scanner `n` bytes further on. -/
def skip (n : Nat) (s : Scanner) : Scanner :=
  { s with pos := s.pos + n }

/-- The next `n` bytes, as far as there are any. -/
def ahead (s : Scanner) (n : Nat) : Bytes :=
  s.source.slice s.pos (s.pos + n)

/-- The text comes next, in any letter case. -/
def matchesAhead (s : Scanner) (text : Bytes) : Bool :=
  (s.ahead text.length).map Byte.lower == text.map Byte.lower

theorem pos_lt_of_not_atEnd {s : Scanner} (h : ¬ s.atEnd = true) :
    s.pos < s.source.content.length := by
  rw [atEnd, decide_eq_true_iff] at h
  omega

@[simp] theorem source_skip (n : Nat) (s : Scanner) : (s.skip n).source = s.source := rfl

@[simp] theorem pos_skip (n : Nat) (s : Scanner) : (s.skip n).pos = s.pos + n := rfl

/-- Moves on as long as there is a byte and `p` holds. -/
def skipWhile (p : Scanner → Bool) (s : Scanner) : Scanner :=
  if h : s.atEnd then s
  else
    have := pos_lt_of_not_atEnd h
    if p s then skipWhile p (s.skip 1) else s
termination_by s.source.content.length - s.pos
decreasing_by simp only [source_skip, pos_skip]; omega

/-! ## Tokens and errors -/

/-- A token starts here. -/
def mark (s : Scanner) : Scanner :=
  { s with start := s.pos }

/-- The token that ends here. -/
def token (kind : Kind) (s : Scanner) : Token :=
  ⟨⟨kind, s.source.slice s.start s.pos⟩, s.start⟩

def emit (kind : Kind) (s : Scanner) : Token × Scanner :=
  (s.token kind, s)

/-- What started with the token is unfinished. -/
def report (fault : Fault) (s : Scanner) : Scanner :=
  { s with errors := s.errors ++ [⟨fault, s.start, s.pos⟩] }

def emitError (fault : Fault) (s : Scanner) : Token × Scanner :=
  (s.report fault).emit .error

/-! ## Space and comments -/

def skipLineComment (s : Scanner) : Scanner :=
  s.skipWhile fun s =>
    s.peek != Byte.lf && !(s.peek == Byte.question && s.peekAt 1 == Byte.greater)

def skipBlockComment (s : Scanner) : Scanner :=
  let s := s.mark.skip 2
  let s := s.skipWhile fun s => !(s.peek == Byte.star && s.peekAt 1 == Byte.slash)
  if s.atEnd then s.report .openComment else s.skip 2

/-- The scanner after one space or comment. -/
def skipPiece? (s : Scanner) : Option Scanner :=
  if s.atEnd then none
  else if Byte.isSpace s.peek then some (s.skip 1)
  else if s.peek = Byte.hash then
    if s.peekAt 1 = Byte.openBracket then none else some s.skipLineComment
  else if s.peek = Byte.slash then
    if s.peekAt 1 = Byte.slash then some s.skipLineComment
    else if s.peekAt 1 = Byte.star then some s.skipBlockComment
    else none
  else none

theorem skipWhile_spec (p : Scanner → Bool) (s : Scanner) :
    ∃ n, s.skipWhile p = s.skip n ∧ (s.atEnd = false → p s = true → 0 < n) := by
  fun_induction skipWhile p s with
  | case1 s h => exact ⟨0, rfl, by simp [h]⟩
  | case2 s h _ hp ih =>
    obtain ⟨n, hn, -⟩ := ih
    refine ⟨1 + n, ?_, fun _ _ => by omega⟩
    rw [hn, skip, skip, skip, Nat.add_assoc]
  | case3 s h _ hp => exact ⟨0, rfl, fun _ h => absurd h hp⟩

theorem skipLineComment_progress {s : Scanner} (hend : ¬ s.atEnd = true)
    (hc : s.peek = Byte.hash ∨ s.peek = Byte.slash) :
    s.skipLineComment.source = s.source ∧ s.pos < s.skipLineComment.pos := by
  obtain ⟨n, hn, hpositive⟩ := skipWhile_spec (fun s => s.peek != Byte.lf &&
    !(s.peek == Byte.question && s.peekAt 1 == Byte.greater)) s
  rw [skipLineComment, hn]
  refine ⟨rfl, Nat.lt_add_of_pos_right (hpositive (Bool.eq_false_iff.mpr hend) ?_)⟩
  rcases hc with hc | hc <;> rw [hc] <;> rfl

theorem skipBlockComment_progress (s : Scanner) :
    s.skipBlockComment.source = s.source ∧ s.pos < s.skipBlockComment.pos := by
  obtain ⟨n, hn, -⟩ := skipWhile_spec
    (fun s => !(s.peek == Byte.star && s.peekAt 1 == Byte.slash)) (s.mark.skip 2)
  rw [skipBlockComment, hn]
  split
  · exact ⟨rfl, by simp only [report, skip, mark]; omega⟩
  · exact ⟨rfl, by simp only [skip, mark]; omega⟩

/-- A space or comment takes the scanner on. -/
theorem skipPiece?_progress {s s' : Scanner} (h : s.skipPiece? = some s') :
    s.pos < s.source.content.length ∧ s'.source = s.source ∧ s.pos < s'.pos := by
  unfold skipPiece? at h
  split at h
  · cases h
  rename_i hend
  refine ⟨pos_lt_of_not_atEnd hend, ?_⟩
  split at h
  · cases h
    exact ⟨rfl, Nat.lt_succ_self _⟩
  split at h
  · rename_i hhash
    split at h
    · cases h
    · cases h
      exact skipLineComment_progress hend (.inl hhash)
  split at h
  · rename_i hslash
    split at h
    · cases h
      exact skipLineComment_progress hend (.inr hslash)
    · split at h
      · cases h
        exact s.skipBlockComment_progress
      · cases h
  · cases h

/-- The scanner after all space and comments. -/
def skipTrivia (s : Scanner) : Scanner :=
  match h : s.skipPiece? with
  | none => s
  | some s' =>
    have := skipPiece?_progress h
    skipTrivia s'
termination_by s.source.content.length - s.pos
decreasing_by rw [this.2.1]; omega

/-! ## Tags and markup -/

def atOpenTag (s : Scanner) : Bool :=
  s.matchesAhead (ascii "<?=") ||
    (s.matchesAhead (ascii "<?php") &&
      (s.peekAt 5 == Byte.nul || s.peekAt 5 == Byte.space || s.peekAt 5 == Byte.tab ||
        s.peekAt 5 == Byte.lf || s.peekAt 5 == Byte.cr))

def openTag (s : Scanner) : Token × Scanner :=
  let s := s.mark
  let s := s.skip (if s.matchesAhead (ascii "<?=") then 3 else 5)
  emit .openTag { s with mode := .code }

def closeTag (s : Scanner) : Token × Scanner :=
  let s := s.skip 2
  let s :=
    if s.peek = Byte.lf then s.skip 1
    else if s.peek = Byte.cr ∧ s.peekAt 1 = Byte.lf then s.skip 2
    else s
  emit .closeTag { s with mode := .markup }

def inlineHtml (s : Scanner) : Token × Scanner :=
  (s.mark.skipWhile fun s => !s.atOpenTag).emit .inlineHtml

/-! ## Names and numbers -/

def identifier (s : Scanner) : Token × Scanner :=
  (s.skipWhile fun s => Byte.isNameByte s.peek ||
    (s.peek == Byte.backslash && Byte.isNameStart (s.peekAt 1))).emit .identifier

def variableName (s : Scanner) : Token × Scanner :=
  ((s.skip 1).skipWhile fun s => Byte.isNameByte s.peek).emit .var

def skipDigits (s : Scanner) : Scanner :=
  s.skipWhile fun s => Byte.isDigit s.peek || s.peek == Byte.underscore

/-- A point counts with the digits after it, and without any only if something came before it. -/
def skipFraction (s : Scanner) : Scanner :=
  if s.peek = Byte.dot ∧ Byte.isDigit (s.peekAt 1) then (s.skip 1).skipDigits
  else if s.peek = Byte.dot ∧ s.start < s.pos then s.skip 1
  else s

def skipExponent (s : Scanner) : Scanner :=
  if s.peek = 0x65 ∨ s.peek = 0x45 then
    let s :=
      if Byte.isDigit (s.peekAt 1) then s.skip 1
      else if (s.peekAt 1 = Byte.plus ∨ s.peekAt 1 = Byte.minus) ∧ Byte.isDigit (s.peekAt 2) then
        s.skip 2
      else s
    s.skipWhile fun s => Byte.isDigit s.peek
  else s

def number (s : Scanner) : Token × Scanner :=
  if s.peek = Byte.zero ∧ Number.isBaseMark (s.peekAt 1) then
    ((s.skip 2).skipWhile fun s => Byte.isNameByte s.peek).emit .number
  else s.skipDigits.skipFraction.skipExponent.emit .number

/-! ## Strings -/

/-- Takes a backslash and the byte after it, if there is one. -/
def skipEscape (s : Scanner) : Scanner :=
  if (s.skip 1).atEnd then s.skip 1 else s.skip 2

theorem skipEscape_spec (s : Scanner) :
    s.skipEscape.source = s.source ∧ s.pos < s.skipEscape.pos := by
  unfold skipEscape
  split <;> exact ⟨rfl, by simp only [pos_skip]; omega⟩

/-- Goes on after the closing single quote, or to the end if there is none. -/
def closeSingle (s : Scanner) : Bool × Scanner :=
  if h : s.atEnd then (false, s)
  else
    have := pos_lt_of_not_atEnd h
    if s.peek = Byte.backslash then closeSingle s.skipEscape
    else if s.peek = Byte.singleQuote then (true, s.skip 1)
    else closeSingle (s.skip 1)
termination_by s.source.content.length - s.pos
decreasing_by
  · have := s.skipEscape_spec.2; rw [s.skipEscape_spec.1]; omega
  · simp only [source_skip, pos_skip]; omega

def singleQuoted (s : Scanner) : Token × Scanner :=
  let (closed, s) := (s.skip 1).closeSingle
  if closed then s.emit .string else s.emitError .openString

/-- Goes on after the closing quote, and says whether something in between interpolates; goes to the
end if there is no closing quote. -/
def closeDouble (quote : UInt8) (interpolated : Bool) (s : Scanner) : Option Bool × Scanner :=
  if h : s.atEnd then (none, s)
  else
    have := pos_lt_of_not_atEnd h
    if s.peek = Byte.backslash then closeDouble quote interpolated s.skipEscape
    else if s.peek = quote then (some interpolated, s.skip 1)
    else if s.peek = Byte.dollar ∧
        (Byte.isNameStart (s.peekAt 1) ∨ s.peekAt 1 = Byte.openBrace) then
      closeDouble quote true (s.skip 1)
    else if s.peek = Byte.openBrace ∧ s.peekAt 1 = Byte.dollar then
      closeDouble quote true (s.skip 1)
    else closeDouble quote interpolated (s.skip 1)
termination_by s.source.content.length - s.pos
decreasing_by
  · have := s.skipEscape_spec.2; rw [s.skipEscape_spec.1]; omega
  all_goals simp only [source_skip, pos_skip]; omega

def doubleQuoted (s : Scanner) : Token × Scanner :=
  match (s.skip 1).closeDouble s.peek (s.peek == Byte.backtick) with
  | (some true, s) => s.emit .interpolatedString
  | (some false, s) => s.emit .string
  | (none, s) => s.emitError .openString

/-! ## Operators and heredocs -/

/-- Takes one byte, and steps back over it to look for a longer operator. -/
def operator (s : Scanner) : Token × Scanner :=
  let c := s.peek
  let s := s.skip 1
  if c = Byte.openParen then s.emit .openParen
  else if c = Byte.closeParen then s.emit .closeParen
  else if c = Byte.comma then s.emit .comma
  else
    let s := { s with pos := s.pos - 1 }
    match Symbol.operators.find? fun text => s.ahead text.length == text with
    | some text => (s.skip text.length).emit .operator
    | none => (s.skip 1).emit .operator

def skipBlanks (s : Scanner) : Scanner :=
  s.skipWhile fun s => Byte.isBlank s.peek

/-- Goes to the next line feed. -/
def skipLine (s : Scanner) : Scanner :=
  s.skipWhile fun s => s.peek != Byte.lf

/-- Goes from the end of a line to the end of the label on the first line after it that closes the
heredoc, or to the end if there is none. -/
def closeHeredoc (label : Bytes) (s : Scanner) : Bool × Scanner :=
  if h : s.atEnd then (false, s)
  else
    have := pos_lt_of_not_atEnd h
    let line := (s.skip 1).skipBlanks
    if line.ahead label.length = label ∧ ¬ Byte.isNameByte (line.peekAt label.length) then
      (true, line.skip label.length)
    else closeHeredoc label line.skipLine
termination_by s.source.content.length - s.pos
decreasing_by
  obtain ⟨n, hn, -⟩ := skipWhile_spec (fun s => Byte.isBlank s.peek) (s.skip 1)
  obtain ⟨m, hm, -⟩ := skipWhile_spec (fun s => s.peek != Byte.lf) line
  have hline : line = (s.skip 1).skip n := hn
  rw [skipLine, hm, hline]
  simp only [source_skip, pos_skip]
  omega

/-- The name that comes next, and the scanner after it and after the quote, unless that is NUL. -/
def labelName? (quote : UInt8) (s : Scanner) : Option (Bytes × Scanner) :=
  if Byte.isNameStart s.peek then
    let stop := s.skipWhile fun s => Byte.isNameByte s.peek
    let name := s.source.slice s.pos stop.pos
    if quote = Byte.nul then some (name, stop)
    else if stop.peek = quote then some (name, stop.skip 1)
    else none
  else none

/-- The label that comes next, possibly in quotes, and the scanner after it. -/
def label? (s : Scanner) : Option (Bytes × Scanner) :=
  if s.peek = Byte.singleQuote ∨ s.peek = Byte.doubleQuote then (s.skip 1).labelName? s.peek
  else s.labelName? Byte.nul

/-- The label at the end of a header, and the scanner at the line feed after it. -/
def heredocLabel? (s : Scanner) : Option (Bytes × Scanner) :=
  match (s.skip 3).skipBlanks.label? with
  | none => none
  | some (label, s) =>
    let s := if s.peek = Byte.cr then s.skip 1 else s
    if s.peek = Byte.lf then some (label, s) else none

/-- A heredoc. What only begins like one is an operator, read from where the scanner was before. -/
def heredoc (s : Scanner) : Token × Scanner :=
  match s.heredocLabel? with
  | none => s.operator
  | some (label, body) =>
    let (closed, s) := body.closeHeredoc label
    if closed then s.emit .heredoc else s.emitError .openHeredoc

/-! ## The next token -/

/-- The token of code that starts here. -/
def codeToken (s : Scanner) : Token × Scanner :=
  let c := s.peek
  if c = Byte.question ∧ s.peekAt 1 = Byte.greater then s.closeTag
  else if c = Byte.dollar ∧ Byte.isNameStart (s.peekAt 1) then s.variableName
  else if Byte.isNameStart c ∨ (c = Byte.backslash ∧ Byte.isNameStart (s.peekAt 1)) then
    s.identifier
  else if Byte.isDigit c ∨ (c = Byte.dot ∧ Byte.isDigit (s.peekAt 1)) then s.number
  else if c = Byte.singleQuote then s.singleQuoted
  else if c = Byte.doubleQuote ∨ c = Byte.backtick then s.doubleQuoted
  else if c = Byte.less ∧ s.peekAt 1 = Byte.less ∧ s.peekAt 2 = Byte.less then s.heredoc
  else s.operator

/-- Reads the next token. -/
def next (s : Scanner) : Token × Scanner :=
  match s.mode with
  | .markup =>
    let s := s.mark
    if s.atEnd then s.emit .eof
    else if s.atOpenTag then s.openTag
    else s.inlineHtml
  | .code =>
    let s := s.skipTrivia.mark
    if s.atEnd then s.emit .eof else s.codeToken

/-- The scanner after a number of tokens. -/
def after : Nat → Scanner → Scanner
  | 0, s => s
  | n + 1, s => after n s.next.2

/-- The next tokens, also past the end. -/
def take : Nat → Scanner → List Token
  | 0, _ => []
  | n + 1, s => s.next.1 :: take n s.next.2

end Scanner

end TextDomain
