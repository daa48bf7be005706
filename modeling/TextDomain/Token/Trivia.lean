import TextDomain.Bytes

/-!
# What code skips

Between two tokens of code there may be space and comments. `Trivia.first?` recognises one such
piece at the start of a text and `Trivia.run` all of them up to the next token. A line comment ends
before the line feed or before a close tag, whichever comes first; a block comment ends with the
first `*/` after its opening two bytes, and one without it (`Trivia.unclosed`) takes the rest of the
text.
-/

namespace TextDomain

/-- One skipped piece of code. -/
inductive Trivia where
  | space (byte : UInt8)
  | lineComment (text : Bytes)
  | blockComment (text : Bytes)
  /-- A block comment that the text ends in. -/
  | unclosed (text : Bytes)
  deriving DecidableEq, Repr

namespace Trivia

/-- The bytes of a skipped piece. -/
def text : Trivia → Bytes
  | space byte => [byte]
  | lineComment text => text
  | blockComment text => text
  | unclosed text => text

/-- The text up to a line feed or a close tag, or all of it. -/
def lineBody : Bytes → Bytes
  | [] => []
  | c :: s =>
    if c = Byte.lf ∨ (c = Byte.question ∧ s.head? = some Byte.greater) then []
    else c :: lineBody s

/-- The text up to and including the first `*/`, if there is one. -/
def blockBody? : Bytes → Option Bytes
  | [] => none
  | c :: s =>
    if c = Byte.star ∧ s.head? = some Byte.slash then some [Byte.star, Byte.slash]
    else (blockBody? s).map (c :: ·)

/-- The comment that starts with a slash, given what follows the slash. -/
def slashComment? : Bytes → Option Trivia
  | [] => none
  | c :: s =>
    if c = Byte.slash then some (lineComment (Byte.slash :: Byte.slash :: lineBody s))
    else if c = Byte.star then
      match blockBody? s with
      | some body => some (blockComment (Byte.slash :: Byte.star :: body))
      | none => some (unclosed (Byte.slash :: Byte.star :: s))
    else none

/-- The piece to skip at the start of a text. A hash starts a comment unless a bracket follows,
which is the start of an attribute. -/
def first? : Bytes → Option Trivia
  | [] => none
  | c :: s =>
    if Byte.isSpace c then some (space c)
    else if c = Byte.hash then
      if s.head? = some Byte.openBracket then none
      else some (lineComment (Byte.hash :: lineBody s))
    else if c = Byte.slash then slashComment? s
    else none

theorem text_ne_nil_of_slashComment? {s : Bytes} {t : Trivia} (h : slashComment? s = some t) :
    t.text ≠ [] := by
  unfold slashComment? at h
  split at h
  · simp at h
  · split at h
    · simp only [Option.some.injEq] at h
      simp [← h, text]
    · split at h
      · split at h <;> simp only [Option.some.injEq] at h <;> simp [← h, text]
      · simp at h

theorem text_ne_nil_of_first? {s : Bytes} {t : Trivia} (h : first? s = some t) :
    t.text ≠ [] := by
  unfold first? at h
  split at h
  · simp at h
  · split at h
    · simp only [Option.some.injEq] at h
      simp [← h, text]
    · split at h
      · split at h
        · simp at h
        · simp only [Option.some.injEq] at h
          simp [← h, text]
      · split at h
        · exact text_ne_nil_of_slashComment? h
        · simp at h

theorem length_drop_lt {s : Bytes} {t : Trivia} (h : first? s = some t) :
    (s.drop t.text.length).length < s.length := by
  have ht : 0 < t.text.length := List.length_pos_iff.mpr (text_ne_nil_of_first? h)
  have hs : 0 < s.length := by
    cases s with
    | nil => simp [first?] at h
    | cons c s => simp
  simp only [List.length_drop]
  omega

/-- Everything to skip at the start of a text, piece by piece. -/
def run (s : Bytes) : List Trivia :=
  match h : first? s with
  | none => []
  | some piece =>
    have := length_drop_lt h
    piece :: run (s.drop piece.text.length)
termination_by s.length
decreasing_by exact this

/-- The bytes of skipped pieces, joined. -/
def join (pieces : List Trivia) : Bytes :=
  pieces.flatMap text

/-- The comment without an end among skipped pieces. -/
def unclosed? (pieces : List Trivia) : Option Bytes :=
  pieces.findSome? fun
    | unclosed text => some text
    | _ => none

end Trivia

end TextDomain
