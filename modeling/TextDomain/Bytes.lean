/-!
# Byte strings

All text is a list of bytes, so that columns, lengths and offsets count bytes and no input is
malformed. `ascii` writes a fixed text as bytes. The namespace `Byte` names the bytes that matter
to the grammar and gives the classes it is written with: `isSpace`, `isBlank`, `isDigit`,
`isNameStart`, `isNameByte`. Bytes from 0x80 up count as letters, which covers names in UTF-8.
-/

namespace TextDomain

/-- Text as the bytes it is stored in. -/
abbrev Bytes := List UInt8

/-- The bytes of a text that holds ASCII characters only. -/
def ascii (s : String) : Bytes :=
  s.toList.map Char.toUInt8

namespace Byte

abbrev nul : UInt8 := 0x00
abbrev tab : UInt8 := 0x09
abbrev lf : UInt8 := 0x0a
abbrev vt : UInt8 := 0x0b
abbrev ff : UInt8 := 0x0c
abbrev cr : UInt8 := 0x0d
abbrev space : UInt8 := 0x20
abbrev doubleQuote : UInt8 := 0x22
abbrev hash : UInt8 := 0x23
abbrev dollar : UInt8 := 0x24
abbrev singleQuote : UInt8 := 0x27
abbrev openParen : UInt8 := 0x28
abbrev closeParen : UInt8 := 0x29
abbrev star : UInt8 := 0x2a
abbrev plus : UInt8 := 0x2b
abbrev comma : UInt8 := 0x2c
abbrev minus : UInt8 := 0x2d
abbrev dot : UInt8 := 0x2e
abbrev slash : UInt8 := 0x2f
abbrev zero : UInt8 := 0x30
abbrev less : UInt8 := 0x3c
abbrev equals : UInt8 := 0x3d
abbrev greater : UInt8 := 0x3e
abbrev question : UInt8 := 0x3f
abbrev openBracket : UInt8 := 0x5b
abbrev backslash : UInt8 := 0x5c
abbrev underscore : UInt8 := 0x5f
abbrev backtick : UInt8 := 0x60
abbrev openBrace : UInt8 := 0x7b

/-- The bytes code may be laid out with: space, tab, line feed, carriage return, form feed and
vertical tab. -/
def isSpace (c : UInt8) : Bool :=
  c == space || c == tab || c == cr || c == lf || c == ff || c == vt

/-- The bytes a line may be indented with. -/
def isBlank (c : UInt8) : Bool :=
  c == space || c == tab

def isDigit (c : UInt8) : Bool :=
  zero ≤ c && c ≤ 0x39

/-- A name starts with a letter, an underscore or a byte outside ASCII. -/
def isNameStart (c : UInt8) : Bool :=
  (0x61 ≤ c && c ≤ 0x7a) || (0x41 ≤ c && c ≤ 0x5a) || c == underscore || 0x80 ≤ c

/-- After its first byte a name may also hold digits. -/
def isNameByte (c : UInt8) : Bool :=
  isNameStart c || isDigit c

/-- The lower-case form of an ASCII letter; any other byte as it is. -/
def lower (c : UInt8) : UInt8 :=
  if 0x41 ≤ c && c ≤ 0x5a then c + 0x20 else c

end Byte

/-! ## Looking at the start of a text -/

namespace Bytes

/-- The first byte exists and is in the class `p`. -/
def startsIn (p : UInt8 → Bool) : Bytes → Bool
  | [] => false
  | c :: _ => p c

@[simp] theorem startsIn_nil (p : UInt8 → Bool) : startsIn p [] = false := rfl

@[simp] theorem startsIn_cons (p : UInt8 → Bool) (c : UInt8) (s : Bytes) :
    startsIn p (c :: s) = p c := rfl

/-- A run of bytes of a class ends before the first byte of another class. -/
theorem takeWhile_append {cls : UInt8 → Bool} {run rest : Bytes} (hrun : ∀ b ∈ run, cls b = true)
    (hrest : startsIn cls rest = false) : (run ++ rest).takeWhile cls = run := by
  rw [List.takeWhile_append_of_pos hrun]
  cases rest with
  | nil => simp
  | cons c rest =>
    have hc : cls c = false := hrest
    simp [hc]

/-- After a run of bytes of a class comes a byte of another class, if any. -/
theorem startsIn_drop_takeWhile (cls : UInt8 → Bool) (s : Bytes) :
    startsIn cls (s.drop (s.takeWhile cls).length) = false := by
  induction s with
  | nil => rfl
  | cons c s ih =>
    by_cases hc : cls c = true
    · rwa [List.takeWhile_cons_of_pos hc, List.length_cons, List.drop_succ_cons]
    · rw [List.takeWhile_cons_of_neg hc]
      exact Bool.eq_false_iff.mpr hc

/-- The text begins with `c`. -/
def startsWith (c : UInt8) : Bytes → Bool :=
  startsIn (· == c)

/-- What follows `lead`, if the text begins with it. -/
def after? (lead : Bytes) (s : Bytes) : Option Bytes :=
  if lead.isPrefixOf s then some (s.drop lead.length) else none

theorem eq_of_after? {lead s rest : Bytes} (h : after? lead s = some rest) :
    s = lead ++ rest := by
  unfold after? at h
  split at h
  · rename_i hlead
    obtain ⟨t, rfl⟩ := List.isPrefixOf_iff_prefix.mp hlead
    obtain rfl := Option.some.inj h
    simp
  · simp at h

theorem after?_append (lead s : Bytes) : after? lead (lead ++ s) = some s := by
  rw [after?, if_pos (List.isPrefixOf_iff_prefix.mpr (List.prefix_append lead s)), List.drop_left]

/-- The parts of a text between the bytes `sep`; there is always one more part than separators. -/
def splitAt (sep : UInt8) : Bytes → List Bytes
  | [] => [[]]
  | c :: s =>
    if c = sep then [] :: splitAt sep s
    else
      match splitAt sep s with
      | [] => [[c]]
      | part :: parts => (c :: part) :: parts

theorem splitAt_ne_nil (sep : UInt8) (s : Bytes) : splitAt sep s ≠ [] := by
  cases s with
  | nil => simp [splitAt]
  | cons c s =>
    rw [splitAt]
    split
    · simp
    · split <;> simp

/-- The text up to the first NUL byte, which is all of it that the system sees of a name. -/
def untilNul (s : Bytes) : Bytes :=
  s.takeWhile (· != Byte.nul)

end Bytes

end TextDomain
