import TextDomain.Source
import TextDomain.Token.Reading

/-!
# The tokens of a source

A `Cursor` stands somewhere in a text, in a mode. `Cursor.steps` reads from there to the end, which
makes the last token the only one of kind `Kind.eof`. `Source.tokens` gives the tokens of a source
and `Source.errors` what is wrong with it. A token's span runs from its first to its last byte; an
error's span runs from the start of the unfinished text to the end of the content.
-/

namespace TextDomain

/-- What a text can end in the middle of. -/
inductive Fault where
  | openString
  | openComment
  | openHeredoc
  deriving DecidableEq, Repr

namespace Fault

def code : Fault → Bytes
  | openString => ascii "L001"
  | openComment => ascii "L002"
  | openHeredoc => ascii "L003"

def message : Fault → Bytes
  | openString => ascii "Unterminated string literal"
  | openComment => ascii "Unterminated block comment"
  | openHeredoc => ascii "Unterminated heredoc"

end Fault

/-- What an unfinished token is the start of. Only heredocs start with `<`. -/
def Lexeme.fault? (l : Lexeme) : Option Fault :=
  if l.kind ≠ .error then none
  else if Bytes.startsWith Byte.less l.text then some .openHeredoc
  else some .openString

/-- What a reading leaves unfinished, and how long the unfinished text is. -/
def Reading.fault? (r : Reading) : Option (Fault × Nat) :=
  match Trivia.unclosed? r.gap with
  | some comment => some (.openComment, comment.length)
  | none => r.lexeme.fault?.map (·, r.lexeme.text.length)

/-! ## Reading on -/

/-- A place in a text that is being read. -/
structure Cursor where
  mode : Mode
  offset : Nat
  rest : Bytes
  deriving DecidableEq, Repr

/-- A reading and the offset at which it started. -/
structure Step where
  offset : Nat
  reading : Reading
  deriving DecidableEq, Repr

namespace Step

def lexeme (s : Step) : Lexeme :=
  s.reading.lexeme

/-- The offset of the token. -/
def start (s : Step) : Nat :=
  s.offset + s.reading.gapSize

/-- The offset after the token. -/
def stop (s : Step) : Nat :=
  s.offset + s.reading.size

end Step

namespace Cursor

/-- Before the first token. -/
def begin (content : Bytes) : Cursor :=
  ⟨.markup, 0, content⟩

/-- Reads the next token. -/
def step (c : Cursor) : Step :=
  ⟨c.offset, c.mode.read c.rest⟩

/-- The cursor after a step has been taken. -/
def advance (c : Cursor) (s : Step) : Cursor :=
  ⟨s.lexeme.kind.modeAfter c.mode, s.stop, c.rest.drop s.reading.size⟩

def next (c : Cursor) : Cursor :=
  c.advance c.step

theorem length_rest_advance_lt {c : Cursor} (h : c.step.lexeme.kind ≠ .eof) :
    (c.advance c.step).rest.length < c.rest.length :=
  length_drop_size_lt h

/-- The steps up to and including the end of the text. -/
def steps (c : Cursor) : List Step :=
  let step := c.step
  if h : step.lexeme.kind = .eof then [step]
  else
    have := length_rest_advance_lt h
    step :: steps (c.advance step)
termination_by c.rest.length
decreasing_by exact this

/-- A fixed number of steps, also past the end of the text. -/
def take : Nat → Cursor → List Step
  | 0, _ => []
  | n + 1, c => c.step :: take n c.next

end Cursor

/-! ## Tokens and errors -/

/-- A token and the offset at which it starts. -/
structure Token extends Lexeme where
  offset : Nat
  deriving DecidableEq, Inhabited, Repr

/-- Something unfinished: the offset at which it starts and the offset after it. -/
structure LexError where
  fault : Fault
  offset : Nat
  stop : Nat
  deriving DecidableEq, Repr

/-- The token of a step. -/
def Step.token (s : Step) : Token :=
  ⟨s.lexeme, s.start⟩

/-- What is wrong with a step. -/
def Step.error? (s : Step) : Option LexError :=
  s.reading.fault?.map fun (fault, length) => ⟨fault, s.stop - length, s.stop⟩

/-- From the first to the last byte of a token, in the file `file` whose lines start at `starts`. -/
def Token.span (file : Bytes) (starts : List Nat) (t : Token) : Span where
  file := file
  start := { locate starts t.offset with length := UInt32.ofNat t.text.length }
  stop := locate starts (t.offset + (t.text.length - 1))

/-- From the first byte of an error to the place after its last, in the file `file` whose lines
start at `starts`. -/
def LexError.span (file : Bytes) (starts : List Nat) (e : LexError) : Span where
  file := file
  start := locate starts e.offset
  stop := locate starts e.stop

namespace Source

def steps (s : Source) : List Step :=
  (Cursor.begin s.content).steps

/-- All tokens of a source, the last of which is its end. -/
def tokens (s : Source) : List Token :=
  s.steps.map Step.token

/-- All errors of a source. -/
def errors (s : Source) : List LexError :=
  s.steps.filterMap Step.error?

end Source

end TextDomain
