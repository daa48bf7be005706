import Mathlib.Data.List.Basic
import Mathlib.Data.List.TakeWhile
import TextDomain.Json

/-!
# The tokens of JSON

What a JSON text is made of, over bytes: strings, numbers, words and marks, with blanks between
them. A string stands for bytes. Most of its characters stand for themselves; the others are escapes
of one letter or the units of a character, which stand for its UTF-8 form.

The grammar is given by predicates (`IsBody`, `IsNumber`, `Token.IsText`, `Laid`), and beside each
stands a function that reads a longest piece off a text. Every such function reads exactly what the
grammar allows: `takeChar?_eq_some_iff`, `takeBody?_eq_some_iff`, `takeNumber?_eq_some_iff`,
`takeToken?_eq_some_iff` and, for a whole text, `tokens?_eq_some_iff`.

A number goes on as far as there are bytes of numbers (`Token.EndsBefore`), so a text can be cut
into tokens in one way only.
-/

namespace TextDomain

namespace Json

/-! ## Characters -/

/-- The escapes of one letter, with the byte that each stands for. -/
def shortEscapes : List (UInt8 × UInt8) :=
  [(Byte.doubleQuote, Byte.doubleQuote), (Byte.backslash, Byte.backslash),
    (Byte.slash, Byte.slash), (0x62, 0x08), (0x66, Byte.ff), (0x6e, Byte.lf), (0x72, Byte.cr),
    (0x74, Byte.tab)]

/-- The value of a hexadecimal digit, in either case. -/
def hexValue? (c : UInt8) : Option Nat :=
  if Byte.isDigit c then some (c.toNat - 0x30)
  else if 0x61 ≤ c ∧ c ≤ 0x66 then some (c.toNat - 0x57)
  else if 0x41 ≤ c ∧ c ≤ 0x46 then some (c.toNat - 0x37)
  else none

/-- The number that four hexadecimal digits make. -/
def unit? : Bytes → Option Nat
  | [a, b, c, d] => do
    return (((← hexValue? a) * 16 + (← hexValue? b)) * 16 + (← hexValue? c)) * 16 + (← hexValue? d)
  | _ => none

/-- A character in UTF-8. -/
def utf8 (code : Nat) : Bytes :=
  if code < 0x80 then [UInt8.ofNat code]
  else if code < 0x800 then [UInt8.ofNat (0xc0 + code / 0x40), UInt8.ofNat (0x80 + code % 0x40)]
  else if code < 0x10000 then
    [UInt8.ofNat (0xe0 + code / 0x1000), UInt8.ofNat (0x80 + code / 0x40 % 0x40),
      UInt8.ofNat (0x80 + code % 0x40)]
  else
    [UInt8.ofNat (0xf0 + code / 0x40000), UInt8.ofNat (0x80 + code / 0x1000 % 0x40),
      UInt8.ofNat (0x80 + code / 0x40 % 0x40), UInt8.ofNat (0x80 + code % 0x40)]

/-- The units that are the first half of a pair; they stand for no character alone. -/
def IsHigh (n : Nat) : Prop :=
  0xd800 ≤ n ∧ n < 0xdc00

/-- The units that are the second half of a pair. -/
def IsLow (n : Nat) : Prop :=
  0xdc00 ≤ n ∧ n < 0xe000

instance (n : Nat) : Decidable (IsHigh n) :=
  inferInstanceAs (Decidable (_ ∧ _))

instance (n : Nat) : Decidable (IsLow n) :=
  inferInstanceAs (Decidable (_ ∧ _))

/-- The character that two halves of a pair stand for. -/
def pairCode (high low : Nat) : Nat :=
  0x10000 + (high - 0xd800) * 0x400 + (low - 0xdc00)

/-- What an escape by units stands for, and how it is written. -/
inductive IsUnits : Bytes → Bytes → Prop where
  | single {digits : Bytes} {n : Nat} (h : unit? digits = some n) (hhigh : ¬ IsHigh n)
      (hlow : ¬ IsLow n) : IsUnits (utf8 n) (ascii "\\u" ++ digits)
  | pair {digits digits' : Bytes} {n m : Nat} (h : unit? digits = some n)
      (h' : unit? digits' = some m) (hhigh : IsHigh n) (hlow : IsLow m) :
      IsUnits (utf8 (pairCode n m)) (ascii "\\u" ++ digits ++ (ascii "\\u" ++ digits'))

/-- What a character of a string stands for, and how it is written. -/
inductive IsChar : Bytes → Bytes → Prop where
  | plain {c : UInt8} (hc : 0x20 ≤ c) (hquote : c ≠ Byte.doubleQuote)
      (hbackslash : c ≠ Byte.backslash) : IsChar [c] [c]
  | short {letter c : UInt8} (h : (letter, c) ∈ shortEscapes) : IsChar [c] [Byte.backslash, letter]
  | units {a text : Bytes} (h : IsUnits a text) : IsChar a text

/-- What the inside of a string stands for, and how it is written. -/
inductive IsBody : Bytes → Bytes → Prop where
  | nil : IsBody [] []
  | cons {a text s body : Bytes} (h : IsChar a text) (hbody : IsBody s body) :
      IsBody (a ++ s) (text ++ body)

/-! ## Reading characters -/

/-- The unit that a text starts with, and what follows it. -/
def takeUnit? (s : Bytes) : Option (Nat × Bytes) := do
  let rest ← Bytes.after? (ascii "\\u") s
  let n ← unit? (rest.take 4)
  return (n, rest.drop 4)

/-- What the units that a text starts with stand for, and what follows them. -/
def takeUnits? (s : Bytes) : Option (Bytes × Bytes) :=
  match takeUnit? s with
  | none => none
  | some (n, rest) =>
    if IsHigh n then
      match takeUnit? rest with
      | none => none
      | some (m, rest) => if IsLow m then some (utf8 (pairCode n m), rest) else none
    else if IsLow n then none
    else some (utf8 n, rest)

/-- What a letter after a backslash stands for, and what follows it. -/
def takeLetter? : Bytes → Option (Bytes × Bytes)
  | [] => none
  | letter :: s => (shortEscapes.lookup letter).map fun c => ([c], s)

/-- What the character that a text starts with stands for, and what follows it. -/
def takeChar? : Bytes → Option (Bytes × Bytes)
  | [] => none
  | c :: s =>
    if c = Byte.backslash then takeLetter? s <|> takeUnits? (c :: s)
    else if c = Byte.doubleQuote ∨ c < 0x20 then none
    else some ([c], s)

theorem length_of_unit? {digits : Bytes} {n : Nat} (h : unit? digits = some n) :
    digits.length = 4 := by
  unfold unit? at h
  split at h
  · rfl
  · cases h

theorem takeUnit?_eq_some_iff {s rest : Bytes} {n : Nat} : takeUnit? s = some (n, rest) ↔
    ∃ digits, unit? digits = some n ∧ s = ascii "\\u" ++ digits ++ rest := by
  constructor
  · intro h
    simp only [takeUnit?, Option.bind_eq_bind, Option.bind_eq_some_iff, Option.pure_def,
      Option.some.injEq, Prod.mk.injEq] at h
    obtain ⟨t, ht, n, hn, rfl, rfl⟩ := h
    refine ⟨t.take 4, hn, ?_⟩
    rw [List.append_assoc, List.take_append_drop]
    exact Bytes.eq_of_after? ht
  · rintro ⟨digits, hdigits, rfl⟩
    have hlength := length_of_unit? hdigits
    rw [List.append_assoc, takeUnit?, Bytes.after?_append]
    simp [hlength, hdigits]

theorem takeUnits?_eq_some_iff {s a rest : Bytes} :
    takeUnits? s = some (a, rest) ↔ ∃ text, IsUnits a text ∧ s = text ++ rest := by
  constructor
  · intro h
    unfold takeUnits? at h
    split at h
    · cases h
    · rename_i n next hn
      obtain ⟨digits, hdigits, rfl⟩ := takeUnit?_eq_some_iff.mp hn
      split at h
      · rename_i hhigh
        split at h
        · cases h
        · rename_i m next' hm
          obtain ⟨digits', hdigits', rfl⟩ := takeUnit?_eq_some_iff.mp hm
          split at h
          · rename_i hlow
            obtain ⟨rfl, rfl⟩ := Prod.mk.inj (Option.some.inj h)
            exact ⟨_, .pair hdigits hdigits' hhigh hlow, by simp⟩
          · cases h
      · rename_i hhigh
        split at h
        · cases h
        · rename_i hlow
          obtain ⟨rfl, rfl⟩ := Prod.mk.inj (Option.some.inj h)
          exact ⟨_, .single hdigits hhigh hlow, rfl⟩
  · rintro ⟨text, htext, rfl⟩
    cases htext with
    | single h hhigh hlow =>
      rw [takeUnits?, takeUnit?_eq_some_iff.mpr ⟨_, h, rfl⟩]
      simp only [if_neg hhigh, if_neg hlow]
    | pair h h' hhigh hlow =>
      rw [List.append_assoc, takeUnits?, takeUnit?_eq_some_iff.mpr ⟨_, h, rfl⟩]
      simp only [if_pos hhigh, takeUnit?_eq_some_iff.mpr ⟨_, h', rfl⟩, if_pos hlow]

theorem IsUnits.exists_cons {a text : Bytes} (h : IsUnits a text) :
    ∃ more, text = Byte.backslash :: 0x75 :: more := by
  cases h <;> exact ⟨_, rfl⟩

theorem takeLetter?_eq_some_iff {s a rest : Bytes} : takeLetter? s = some (a, rest) ↔
    ∃ letter c, (letter, c) ∈ shortEscapes ∧ a = [c] ∧ s = letter :: rest := by
  have hlookup : ∀ e ∈ shortEscapes, shortEscapes.lookup e.1 = some e.2 :=
    List.forall_iff_forall_mem.mp (by decide)
  cases s with
  | nil => simp [takeLetter?]
  | cons letter s =>
    simp only [takeLetter?, Option.map_eq_some_iff, Prod.mk.injEq, List.cons.injEq]
    constructor
    · rintro ⟨c, hc, rfl, rfl⟩
      obtain ⟨before, later, hescapes, -⟩ := List.lookup_eq_some_iff.mp hc
      exact ⟨letter, c, by rw [hescapes]; simp, rfl, rfl, rfl⟩
    · rintro ⟨_, c, hc, rfl, rfl, rfl⟩
      exact ⟨c, hlookup _ hc, rfl, rfl⟩

/-- A character is read whatever follows it. -/
theorem takeChar?_eq_some_iff {s a rest : Bytes} :
    takeChar? s = some (a, rest) ↔ ∃ text, IsChar a text ∧ s = text ++ rest := by
  constructor
  · intro h
    cases s with
    | nil => cases h
    | cons c s =>
      rw [takeChar?] at h
      split at h
      · rename_i hc
        rw [Option.orElse_eq_orElse, Option.orElse_eq_or, Option.or_eq_some_iff] at h
        rcases h with h | ⟨-, h⟩
        · obtain ⟨letter, d, hd, rfl, rfl⟩ := takeLetter?_eq_some_iff.mp h
          exact ⟨_, .short hd, by rw [hc]; rfl⟩
        · obtain ⟨text, htext, hs⟩ := takeUnits?_eq_some_iff.mp h
          exact ⟨text, .units htext, hs⟩
      · rename_i hbackslash
        split at h
        · cases h
        · rename_i hplain
          rw [not_or, UInt8.not_lt] at hplain
          cases h
          exact ⟨[c], .plain hplain.2 hplain.1 hbackslash, rfl⟩
  · rintro ⟨text, htext, rfl⟩
    cases htext with
    | plain hc hquote hbackslash =>
      have hplain : ¬ (_ ∨ _) := not_or.mpr ⟨hquote, UInt8.not_lt.mpr hc⟩
      rw [List.singleton_append, takeChar?, if_neg hbackslash, if_neg hplain]
    | @short letter c h =>
      have hletter : takeLetter? (letter :: rest) = some ([c], rest) :=
        takeLetter?_eq_some_iff.mpr ⟨letter, c, h, rfl, rfl⟩
      rw [List.cons_append, takeChar?, if_pos rfl, List.singleton_append, hletter]
      rfl
    | units h =>
      obtain ⟨more, rfl⟩ := h.exists_cons
      rw [List.cons_append, takeChar?, if_pos rfl, List.cons_append]
      exact takeUnits?_eq_some_iff.mpr ⟨_, h, rfl⟩

example : takeChar? (ascii "\\ud83d\\ude00x") = some ([0xf0, 0x9f, 0x98, 0x80], ascii "x") := by
  decide

theorem IsChar.exists_cons {a text : Bytes} (h : IsChar a text) :
    ∃ c more, text = c :: more ∧ c ≠ Byte.doubleQuote := by
  cases h with
  | @plain c hc hquote hbackslash => exact ⟨c, [], rfl, hquote⟩
  | @short letter c h => exact ⟨Byte.backslash, [letter], rfl, by decide⟩
  | units h =>
    obtain ⟨more, rfl⟩ := h.exists_cons
    exact ⟨Byte.backslash, 0x75 :: more, rfl, by decide⟩

theorem length_lt_of_takeChar? {s a rest : Bytes} (h : takeChar? s = some (a, rest)) :
    rest.length < s.length := by
  obtain ⟨text, htext, rfl⟩ := takeChar?_eq_some_iff.mp h
  obtain ⟨c, more, rfl, -⟩ := htext.exists_cons
  rw [List.length_append, List.length_cons]
  omega

/-- What the inside of a string stands for, given the text after its opening quote, and what follows
its closing quote. -/
def takeBody? (s : Bytes) : Option (Bytes × Bytes) :=
  if Bytes.startsWith Byte.doubleQuote s then some ([], s.tail)
  else
    match h : takeChar? s with
    | none => none
    | some (a, rest) =>
      have := length_lt_of_takeChar? h
      (takeBody? rest).map fun (b, rest) => (a ++ b, rest)
termination_by s.length

theorem takeBody?_of_takeChar? {s a rest : Bytes}
    (hquote : Bytes.startsWith Byte.doubleQuote s = false) (h : takeChar? s = some (a, rest)) :
    takeBody? s = (takeBody? rest).map fun (b, rest) => (a ++ b, rest) := by
  rw [takeBody?, hquote, if_neg Bool.false_ne_true]
  split
  · rename_i hnone
    cases hnone.symm.trans h
  · rename_i a' rest' hsome
    obtain ⟨rfl, rfl⟩ := Prod.mk.inj (Option.some.inj (hsome.symm.trans h))
    rfl

/-- The inside of a string is read up to its closing quote. -/
theorem takeBody?_eq_some_iff {s a rest : Bytes} : takeBody? s = some (a, rest) ↔
    ∃ body, IsBody a body ∧ s = body ++ Byte.doubleQuote :: rest := by
  constructor
  · intro h
    fun_induction takeBody? s generalizing a with
    | case1 s hquote =>
      obtain ⟨rfl, rfl⟩ := Prod.mk.inj (Option.some.inj h)
      cases s with
      | nil => cases hquote
      | cons c s =>
        obtain rfl : c = Byte.doubleQuote := eq_of_beq hquote
        exact ⟨[], .nil, rfl⟩
    | case2 s hquote hnone => cases h
    | case3 s hquote b next hnext hlt ih =>
      obtain ⟨text, htext, rfl⟩ := takeChar?_eq_some_iff.mp hnext
      obtain ⟨⟨b', rest'⟩, hbody, hpair⟩ := Option.map_eq_some_iff.mp h
      obtain ⟨rfl, rfl⟩ := Prod.mk.inj hpair
      obtain ⟨body, hisBody, rfl⟩ := ih hbody
      exact ⟨text ++ body, .cons htext hisBody, by rw [List.append_assoc]⟩
  · rintro ⟨body, hbody, rfl⟩
    induction hbody with
    | nil =>
      rw [List.nil_append, takeBody?, if_pos (by simp [Bytes.startsWith])]
      rfl
    | @cons b text a body htext hbody ih =>
      have hchar : takeChar? (text ++ (body ++ Byte.doubleQuote :: rest)) =
          some (b, body ++ Byte.doubleQuote :: rest) :=
        takeChar?_eq_some_iff.mpr ⟨text, htext, rfl⟩
      have hquote : Bytes.startsWith Byte.doubleQuote (text ++ (body ++ Byte.doubleQuote :: rest)) =
          false := by
        obtain ⟨c, more, rfl, hc⟩ := htext.exists_cons
        exact beq_false_of_ne hc
      rw [List.append_assoc, takeBody?_of_takeChar? hquote hchar, ih]
      rfl

/-- What a text stands for as the inside of a string. -/
def unescape? (body : Bytes) : Option Bytes :=
  match takeBody? (body ++ [Byte.doubleQuote]) with
  | some (s, []) => some s
  | _ => none

theorem unescape?_eq_some_iff {body s : Bytes} : unescape? body = some s ↔ IsBody s body := by
  constructor
  · intro h
    unfold unescape? at h
    split at h
    · rename_i hbody
      obtain ⟨body', hbody', heq⟩ := takeBody?_eq_some_iff.mp hbody
      rwa [List.append_cancel_right heq, ← Option.some.inj h]
    · cases h
  · intro h
    rw [unescape?, takeBody?_eq_some_iff.mpr ⟨body, h, rfl⟩]

/-! ## Numbers -/

/-- The bytes that numbers are made of. -/
def isNumberByte (c : UInt8) : Bool :=
  Byte.isDigit c || c == Byte.minus || c == Byte.plus || c == Byte.dot || c == 0x65 || c == 0x45

/-- What follows one of the bytes `p`, if the text starts with one; else the text itself. -/
def afterOne (p : UInt8 → Bool) (s : Bytes) : Bytes :=
  if Bytes.startsIn p s then s.tail else s

/-- What follows one digit or more. -/
def afterDigits? (s : Bytes) : Option Bytes :=
  if Bytes.startsIn Byte.isDigit s then some (s.dropWhile Byte.isDigit) else none

/-- What follows the whole part of a number, which starts with a zero only if it is zero. -/
def afterWhole? (s : Bytes) : Option Bytes :=
  if Bytes.startsWith Byte.zero s then some s.tail else afterDigits? s

/-- What follows the fraction of a number, if there is one. -/
def afterFraction? (s : Bytes) : Option Bytes :=
  if Bytes.startsWith Byte.dot s then afterDigits? s.tail else some s

/-- What follows the exponent of a number, if there is one. -/
def afterExponent? (s : Bytes) : Option Bytes :=
  if Bytes.startsIn (fun c => c == 0x65 || c == 0x45) s then
    afterDigits? (afterOne (fun c => c == Byte.plus || c == Byte.minus) s.tail)
  else some s

/-- A text is a number: nothing follows its parts. -/
def IsNumber (s : Bytes) : Prop :=
  ((afterWhole? (afterOne (· == Byte.minus) s)).bind afterFraction?).bind afterExponent? = some []

instance (s : Bytes) : Decidable (IsNumber s) :=
  inferInstanceAs (Decidable (_ = _))

/-- What is taken off a text are bytes of numbers. -/
def Sheds (s rest : Bytes) : Prop :=
  ∀ c ∈ s, isNumberByte c = true ∨ c ∈ rest

theorem Sheds.trans {s t u : Bytes} (h : Sheds s t) (h' : Sheds t u) : Sheds s u :=
  fun c hc => (h c hc).elim .inl (h' c)

theorem sheds_tail {p : UInt8 → Bool} (hp : ∀ c, p c = true → isNumberByte c = true) {s : Bytes}
    (h : Bytes.startsIn p s = true) : Sheds s s.tail := by
  cases s with
  | nil => cases h
  | cons c s =>
    intro d hd
    rcases List.mem_cons.mp hd with rfl | hd
    · exact .inl (hp d h)
    · exact .inr hd

theorem sheds_afterOne {p : UInt8 → Bool} (hp : ∀ c, p c = true → isNumberByte c = true)
    (s : Bytes) : Sheds s (afterOne p s) := by
  unfold afterOne
  split
  · rename_i h
    exact sheds_tail hp h
  · exact fun c hc => .inr hc

theorem sheds_afterDigits? {s rest : Bytes} (h : afterDigits? s = some rest) : Sheds s rest := by
  unfold afterDigits? at h
  split at h
  · rw [← Option.some.inj h]
    intro c hc
    rw [← List.takeWhile_append_dropWhile (p := Byte.isDigit) (l := s)] at hc
    rcases List.mem_append.mp hc with hc | hc
    · refine .inl ?_
      have hdigit := List.mem_takeWhile_imp hc
      simp [isNumberByte, hdigit]
    · exact .inr hc
  · cases h

theorem sheds_afterWhole? {s rest : Bytes} (h : afterWhole? s = some rest) : Sheds s rest := by
  unfold afterWhole? at h
  split at h
  · rename_i hzero
    rw [← Option.some.inj h]
    exact sheds_tail (fun c hc => by rw [eq_of_beq hc]; decide) hzero
  · exact sheds_afterDigits? h

theorem sheds_afterFraction? {s rest : Bytes} (h : afterFraction? s = some rest) :
    Sheds s rest := by
  unfold afterFraction? at h
  split at h
  · rename_i hdot
    exact (sheds_tail (fun c hc => by rw [eq_of_beq hc]; decide) hdot).trans (sheds_afterDigits? h)
  · rw [← Option.some.inj h]
    exact fun c hc => .inr hc

theorem sheds_afterExponent? {s rest : Bytes} (h : afterExponent? s = some rest) :
    Sheds s rest := by
  unfold afterExponent? at h
  split at h
  · rename_i hletter
    refine (sheds_tail (fun c hc => ?_) hletter).trans
      ((sheds_afterOne (fun c hc => ?_) _).trans (sheds_afterDigits? h))
    · simp only [Bool.or_eq_true, beq_iff_eq] at hc
      rcases hc with rfl | rfl <;> decide
    · simp only [Bool.or_eq_true, beq_iff_eq] at hc
      rcases hc with rfl | rfl <;> decide
  · rw [← Option.some.inj h]
    exact fun c hc => .inr hc

/-- A number is made of the bytes of numbers. -/
theorem IsNumber.bytes {s : Bytes} (h : IsNumber s) : ∀ c ∈ s, isNumberByte c = true := by
  rw [IsNumber, Option.bind_eq_some_iff] at h
  obtain ⟨s₂, h, hexponent⟩ := h
  obtain ⟨s₁, hwhole, hfraction⟩ := Option.bind_eq_some_iff.mp h
  have hsheds : Sheds s [] :=
    (sheds_afterOne (fun c hc => by rw [eq_of_beq hc]; decide) s).trans
      ((sheds_afterWhole? hwhole).trans
        ((sheds_afterFraction? hfraction).trans (sheds_afterExponent? hexponent)))
  exact fun c hc => (hsheds c hc).resolve_right List.not_mem_nil

theorem IsNumber.ne_nil {s : Bytes} (h : IsNumber s) : s ≠ [] := by
  rintro rfl
  revert h
  decide

/-! ## Tokens -/

/-- The values that are names. -/
inductive Word where
  | null
  | true
  | false
  deriving DecidableEq, Repr

/-- A value without parts. A number is kept as it is written. -/
inductive Atom where
  | word (w : Word)
  | number (literal : Bytes)
  | string (s : Bytes)
  deriving DecidableEq, Repr

/-- The signs that values are put together with. -/
inductive Mark where
  | openBracket
  | closeBracket
  | openBrace
  | closeBrace
  | comma
  | colon
  deriving DecidableEq, Repr

inductive Token where
  | atom (a : Atom)
  | mark (m : Mark)
  deriving DecidableEq, Repr

/-- The byte of a mark. -/
def Mark.byte : Mark → UInt8
  | .openBracket => Byte.openBracket
  | .closeBracket => 0x5d
  | .openBrace => Byte.openBrace
  | .closeBrace => 0x7d
  | .comma => Byte.comma
  | .colon => 0x3a

/-- The mark with a byte. -/
def Mark.ofByte? (c : UInt8) : Option Mark :=
  [openBracket, closeBracket, openBrace, closeBrace, comma, colon].find? (·.byte == c)

theorem Mark.ofByte?_eq_some_iff {c : UInt8} {m : Mark} : ofByte? c = some m ↔ c = m.byte := by
  constructor
  · intro h
    unfold ofByte? at h
    have hbyte := List.find?_some h
    exact (eq_of_beq hbyte).symm
  · rintro rfl
    cases m <;> rfl

def Word.text : Word → Bytes
  | .null => ascii "null"
  | .true => ascii "true"
  | .false => ascii "false"

/-- How an atom is written. -/
def Atom.IsText : Atom → Bytes → Prop
  | .word w, text => text = w.text
  | .number n, text => IsNumber n ∧ text = n
  | .string s, text => ∃ body, IsBody s body ∧
    text = Byte.doubleQuote :: (body ++ [Byte.doubleQuote])

/-- How a token is written. -/
def Token.IsText : Token → Bytes → Prop
  | .atom a, text => a.IsText text
  | .mark m, text => text = [m.byte]

/-- A token ends before a text: a number goes on as far as there are bytes of numbers. -/
def Token.EndsBefore : Token → Bytes → Prop
  | .atom (.number _), rest => Bytes.startsIn isNumberByte rest = false
  | _, _ => True

/-- The number that a text starts with, and what follows it. -/
def takeNumber? (s : Bytes) : Option (Bytes × Bytes) :=
  let n := s.takeWhile isNumberByte
  if IsNumber n then some (n, s.drop n.length) else none

/-- The word that a text starts with, and what follows it. -/
def takeWord? (s : Bytes) : Option (Word × Bytes) :=
  [Word.null, Word.true, Word.false].findSome? fun w =>
    (Bytes.after? w.text s).map fun rest => (w, rest)

/-- The token that a text starts with, and what follows it. -/
def takeToken? : Bytes → Option (Token × Bytes)
  | [] => none
  | c :: s =>
    match Mark.ofByte? c with
    | some m => some (.mark m, s)
    | none =>
      if c = Byte.doubleQuote then
        (takeBody? s).map fun (a, rest) => (.atom (.string a), rest)
      else if isNumberByte c then
        (takeNumber? (c :: s)).map fun (n, rest) => (.atom (.number n), rest)
      else (takeWord? (c :: s)).map fun (w, rest) => (.atom (.word w), rest)

theorem takeNumber?_eq_some_iff {s n rest : Bytes} : takeNumber? s = some (n, rest) ↔
    IsNumber n ∧ Bytes.startsIn isNumberByte rest = false ∧ s = n ++ rest := by
  constructor
  · intro h
    unfold takeNumber? at h
    dsimp only at h
    split at h
    · rename_i hn
      obtain ⟨rfl, rfl⟩ := Prod.mk.inj (Option.some.inj h)
      have hs := List.prefix_iff_eq_append.mp (List.takeWhile_prefix isNumberByte (l := s))
      exact ⟨hn, Bytes.startsIn_drop_takeWhile isNumberByte s, hs.symm⟩
    · cases h
  · rintro ⟨hn, hrest, rfl⟩
    simp [takeNumber?, Bytes.takeWhile_append hn.bytes hrest, hn]

example : takeNumber? (ascii "-0.5e+10,") = some (ascii "-0.5e+10", ascii ",") ∧
    takeNumber? (ascii "01,") = none := by
  decide

theorem takeWord?_eq_some_iff {s rest : Bytes} {w : Word} :
    takeWord? s = some (w, rest) ↔ s = w.text ++ rest := by
  constructor
  · intro h
    obtain ⟨v, -, hv⟩ := List.exists_of_findSome?_eq_some h
    obtain ⟨later, hlater, hpair⟩ := Option.map_eq_some_iff.mp hv
    obtain ⟨rfl, rfl⟩ := Prod.mk.inj hpair
    exact Bytes.eq_of_after? hlater
  · rintro rfl
    cases w <;> rfl

theorem IsNumber.exists_cons {n : Bytes} (h : IsNumber n) :
    ∃ c more, n = c :: more ∧ isNumberByte c = true := by
  obtain ⟨c, more, rfl⟩ := List.exists_cons_of_ne_nil h.ne_nil
  exact ⟨c, more, rfl, h.bytes c List.mem_cons_self⟩

theorem Mark.ofByte?_of_isNumberByte {c : UInt8} (h : isNumberByte c = true) :
    ofByte? c = none := by
  refine Option.eq_none_iff_forall_ne_some.mpr fun m hm => ?_
  rw [ofByte?_eq_some_iff.mp hm] at h
  revert h
  cases m <;> decide

theorem isText_of_takeToken? {s rest : Bytes} {t : Token} (h : takeToken? s = some (t, rest)) :
    ∃ text, t.IsText text ∧ t.EndsBefore rest ∧ s = text ++ rest := by
  cases s with
  | nil => cases h
  | cons c s =>
    rw [takeToken?] at h
    split at h
    · rename_i m hm
      obtain ⟨rfl, rfl⟩ := Prod.mk.inj (Option.some.inj h)
      exact ⟨_, rfl, trivial, by rw [Mark.ofByte?_eq_some_iff.mp hm]; rfl⟩
    · split at h
      · rename_i hquote
        obtain ⟨⟨a, later⟩, hread, hpair⟩ := Option.map_eq_some_iff.mp h
        obtain ⟨rfl, rfl⟩ := Prod.mk.inj hpair
        obtain ⟨body, hbody, rfl⟩ := takeBody?_eq_some_iff.mp hread
        exact ⟨_, ⟨body, hbody, rfl⟩, trivial, by simp [hquote]⟩
      · split at h
        · obtain ⟨⟨n, later⟩, hn, hpair⟩ := Option.map_eq_some_iff.mp h
          obtain ⟨rfl, rfl⟩ := Prod.mk.inj hpair
          obtain ⟨hn, hlater, hs⟩ := takeNumber?_eq_some_iff.mp hn
          exact ⟨n, ⟨hn, rfl⟩, hlater, hs⟩
        · obtain ⟨⟨w, later⟩, hw, hpair⟩ := Option.map_eq_some_iff.mp h
          obtain ⟨rfl, rfl⟩ := Prod.mk.inj hpair
          exact ⟨w.text, rfl, trivial, takeWord?_eq_some_iff.mp hw⟩

/-- The first byte of a token tells its kind, so no other kind is tried. -/
theorem takeToken?_append {t : Token} {text rest : Bytes} (htext : t.IsText text)
    (hrest : t.EndsBefore rest) : takeToken? (text ++ rest) = some (t, rest) := by
  match t, htext with
  | .mark m, htext =>
    rw [show text = [m.byte] from htext, List.singleton_append, takeToken?,
      Mark.ofByte?_eq_some_iff.mpr rfl]
  | .atom (.string a), ⟨body, hbody, htext⟩ =>
    have hread : takeBody? (body ++ Byte.doubleQuote :: rest) = some (a, rest) :=
      takeBody?_eq_some_iff.mpr ⟨body, hbody, rfl⟩
    rw [htext]
    simp [takeToken?, show Mark.ofByte? Byte.doubleQuote = none from rfl, hread]
  | .atom (.number n), ⟨hn, htext⟩ =>
    obtain ⟨c, more, rfl, hc⟩ := hn.exists_cons
    have hquote : c ≠ Byte.doubleQuote := by
      rintro rfl
      revert hc
      decide
    have hread := takeNumber?_eq_some_iff.mpr ⟨hn, hrest, rfl⟩
    rw [htext, List.cons_append, takeToken?, Mark.ofByte?_of_isNumberByte hc]
    simp only [if_neg hquote, if_pos hc]
    rw [← List.cons_append, hread, Option.map_some]
  | .atom (.word w), htext =>
    rw [show text = w.text from htext]
    cases w <;> rfl

theorem takeToken?_eq_some_iff {s rest : Bytes} {t : Token} : takeToken? s = some (t, rest) ↔
    ∃ text, t.IsText text ∧ t.EndsBefore rest ∧ s = text ++ rest := by
  constructor
  · exact isText_of_takeToken?
  · rintro ⟨text, htext, hrest, rfl⟩
    exact takeToken?_append htext hrest

/-! ## Visible bytes -/

theorem visible_of_unit? {digits : Bytes} {n : Nat} (h : unit? digits = some n) :
    ∀ c ∈ digits, 0x20 ≤ c := by
  have hdigit : ∀ {c m}, hexValue? c = some m → 0x20 ≤ c := by
    intro c m hc
    unfold hexValue? at hc
    grind [Byte.isDigit]
  unfold unit? at h
  split at h
  · rename_i a b c d
    simp only [Option.bind_eq_bind, Option.bind_eq_some_iff] at h
    obtain ⟨_, ha, _, hb, _, hc, _, hd, -⟩ := h
    simp [hdigit ha, hdigit hb, hdigit hc, hdigit hd]
  · cases h

theorem IsUnits.visible {a text : Bytes} (h : IsUnits a text) : ∀ c ∈ text, 0x20 ≤ c := by
  have hlead : ∀ c ∈ ascii "\\u", 0x20 ≤ c := List.forall_iff_forall_mem.mp (by decide)
  cases h with
  | single h =>
    exact List.forall_mem_append.mpr ⟨hlead, visible_of_unit? h⟩
  | pair h h' =>
    simp only [List.forall_mem_append]
    exact ⟨⟨hlead, visible_of_unit? h⟩, hlead, visible_of_unit? h'⟩

theorem IsChar.visible {a text : Bytes} (h : IsChar a text) : ∀ c ∈ text, 0x20 ≤ c := by
  have hletters : ∀ e ∈ shortEscapes, 0x20 ≤ e.1 := List.forall_iff_forall_mem.mp (by decide)
  cases h with
  | plain hc => exact List.forall_mem_singleton.mpr hc
  | short h => exact List.forall_mem_cons.mpr ⟨by decide, by simpa using hletters _ h⟩
  | units h => exact h.visible

theorem IsBody.visible {s body : Bytes} (h : IsBody s body) : ∀ c ∈ body, 0x20 ≤ c := by
  induction h with
  | nil => exact List.forall_mem_nil _
  | cons h _ ih => exact List.forall_mem_append.mpr ⟨h.visible, ih⟩

/-- No token holds a control byte. -/
theorem Token.IsText.visible {t : Token} {text : Bytes} (h : t.IsText text) :
    ∀ c ∈ text, 0x20 ≤ c := by
  match t, h with
  | .mark m, h =>
    rw [show text = [m.byte] from h, List.forall_mem_singleton]
    cases m <;> decide
  | .atom (.string s), ⟨body, hbody, h⟩ =>
    have hquote : (0x20 : UInt8) ≤ Byte.doubleQuote := by decide
    simp only [h, List.forall_mem_cons, List.forall_mem_append]
    exact ⟨hquote, hbody.visible, hquote, List.forall_mem_nil _⟩
  | .atom (.number n), ⟨hn, h⟩ =>
    intro c hc
    have hnumber := hn.bytes c (h ▸ hc)
    grind [isNumberByte, Byte.isDigit]
  | .atom (.word w), h =>
    rw [show text = w.text from h]
    cases w <;> exact List.forall_iff_forall_mem.mp (by decide)

/-! ## Texts -/

/-- The bytes that may stand between tokens. -/
def isBlank (c : UInt8) : Bool :=
  c == Byte.space || c == Byte.tab || c == Byte.lf || c == Byte.cr

/-- Tokens are written one after another, with any blanks around them. -/
inductive Laid : List Token → Bytes → Prop where
  | nil {blanks : Bytes} (hblanks : ∀ c ∈ blanks, isBlank c = true) : Laid [] blanks
  | cons {blanks text rest : Bytes} {t : Token} {ts : List Token}
      (hblanks : ∀ c ∈ blanks, isBlank c = true) (htext : t.IsText text) (hends : t.EndsBefore rest)
      (hrest : Laid ts rest) : Laid (t :: ts) (blanks ++ (text ++ rest))

theorem Token.IsText.exists_cons {t : Token} {text : Bytes} (h : t.IsText text) :
    ∃ c more, text = c :: more ∧ isBlank c = false := by
  match t, h with
  | .mark m, h =>
    refine ⟨m.byte, [], h, ?_⟩
    cases m <;> rfl
  | .atom (.string s), ⟨body, _, h⟩ => exact ⟨_, _, h, rfl⟩
  | .atom (.number n), ⟨hn, h⟩ =>
    obtain ⟨c, more, rfl, hc⟩ := hn.exists_cons
    refine ⟨c, more, h, Bool.eq_false_iff.mpr fun hblank => ?_⟩
    simp only [isBlank, Bool.or_eq_true, beq_iff_eq] at hblank
    rcases hblank with ((rfl | rfl) | rfl) | rfl <;> revert hc <;> decide
  | .atom (.word w), h =>
    rw [show text = w.text from h]
    cases w <;> exact ⟨_, _, rfl, rfl⟩

/-- What follows the blanks that a text starts with. -/
def afterBlanks (s : Bytes) : Bytes :=
  s.drop (s.takeWhile isBlank).length

theorem takeWhile_append_afterBlanks (s : Bytes) :
    s.takeWhile isBlank ++ afterBlanks s = s :=
  List.prefix_iff_eq_append.mp (List.takeWhile_prefix isBlank)

theorem afterBlanks_append {blanks rest : Bytes} (hblanks : ∀ c ∈ blanks, isBlank c = true)
    (hrest : Bytes.startsIn isBlank rest = false) : afterBlanks (blanks ++ rest) = rest := by
  rw [afterBlanks, Bytes.takeWhile_append hblanks hrest, List.drop_left]

theorem length_lt_of_takeToken? {s rest : Bytes} {t : Token}
    (h : takeToken? (afterBlanks s) = some (t, rest)) : rest.length < s.length := by
  obtain ⟨text, htext, -, hs⟩ := takeToken?_eq_some_iff.mp h
  obtain ⟨c, more, rfl, -⟩ := htext.exists_cons
  have hle : (afterBlanks s).length ≤ s.length := by simp [afterBlanks]
  rw [hs, List.length_append, List.length_cons] at hle
  omega

/-- The tokens of a text. -/
def tokens? (s : Bytes) : Option (List Token) :=
  if afterBlanks s = [] then some []
  else
    match h : takeToken? (afterBlanks s) with
    | none => none
    | some (t, rest) =>
      have := length_lt_of_takeToken? h
      (tokens? rest).map (t :: ·)
termination_by s.length

theorem tokens?_of_takeToken? {s rest : Bytes} {t : Token}
    (h : takeToken? (afterBlanks s) = some (t, rest)) :
    tokens? s = (tokens? rest).map (t :: ·) := by
  have hne : afterBlanks s ≠ [] := by
    intro hnil
    rw [hnil] at h
    cases h
  rw [tokens?, if_neg hne]
  split
  · rename_i hnone
    cases hnone.symm.trans h
  · rename_i t' rest' hsome
    obtain ⟨rfl, rfl⟩ := Prod.mk.inj (Option.some.inj (hsome.symm.trans h))
    rfl

/-- The tokens of a text are those it is laid out with. -/
theorem tokens?_eq_some_iff {s : Bytes} {ts : List Token} : tokens? s = some ts ↔ Laid ts s := by
  constructor
  · intro h
    fun_induction tokens? s generalizing ts with
    | case1 s hnil =>
      cases h
      rw [← takeWhile_append_afterBlanks s, hnil, List.append_nil]
      exact .nil fun c hc => List.mem_takeWhile_imp hc
    | case2 s hne hnone => cases h
    | case3 s hne t rest htoken hlt ih =>
      obtain ⟨ts, hts, rfl⟩ := Option.map_eq_some_iff.mp h
      obtain ⟨text, htext, hends, hs⟩ := takeToken?_eq_some_iff.mp htoken
      rw [← takeWhile_append_afterBlanks s, hs]
      exact .cons (fun c hc => List.mem_takeWhile_imp hc) htext hends (ih hts)
  · intro h
    induction h with
    | @nil blanks hblanks =>
      have hnil := afterBlanks_append hblanks (Bytes.startsIn_nil isBlank)
      rw [List.append_nil] at hnil
      rw [tokens?, if_pos hnil]
    | @cons blanks text rest t ts hblanks htext hends hrest ih =>
      obtain ⟨c, more, rfl, hc⟩ := htext.exists_cons
      have htoken := takeToken?_append htext hends
      have hstart : Bytes.startsIn isBlank (c :: more ++ rest) = false := hc
      rw [← afterBlanks_append hblanks hstart] at htoken
      rw [tokens?_of_takeToken? htoken, ih]
      rfl

end Json

end TextDomain
