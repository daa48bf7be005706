import Mathlib.Data.List.Forall2
import TextDomain.Diagnostic.Emitter
import TextDomain.Proofs.JsonValues

/-!
# Diagnostics read back from JSON

A diagnostic in JSON is put together from texts of its parts. `Spells` says of each part which
tokens it writes and that it holds no control byte. Parts are joined by marks only, so the statement
passes from the parts to the whole (`Spells.append_mark`): from strings and numbers to fields, to
objects and arrays, and in the end to a diagnostic (`Diagnostic.spells`).

On the other side `Diagnostic.ofValue?` reads a diagnostic from any value. It asks for members by
name, each of which must be there once, and reads of a location no more than its line and column. It
finds what was written (`Diagnostic.ofValue?_members`), for any bytes and any number of fixes.
-/

namespace TextDomain

namespace Json

/-! ## Writing tokens -/

/-- A text writes tokens, unless bytes of a number follow it, and holds no control byte. -/
structure Spells (ts : List Token) (text : Bytes) : Prop where
  laid : ∀ {us : List Token} {rest : Bytes}, Laid us rest →
    Bytes.startsIn isNumberByte rest = false → Laid (ts ++ us) (text ++ rest)
  visible : ∀ c ∈ text, 0x20 ≤ c

theorem Spells.nil : Spells [] [] where
  laid h _ := h
  visible := List.forall_mem_nil _

theorem spells_token {t : Token} {text : Bytes} (h : t.IsText text) : Spells [t] text where
  laid {us rest} hrest hnumber := by
    have hends : t.EndsBefore rest := by
      unfold Token.EndsBefore
      split
      · exact hnumber
      · trivial
    exact .cons (List.forall_mem_nil _) h hends hrest
  visible := h.visible

/-- A mark may stand between any two texts. -/
theorem Spells.append_mark {ts us : List Token} {text text' : Bytes} (h : Spells ts text)
    (m : Mark) (h' : Spells us text') : Spells (ts ++ .mark m :: us) (text ++ m.byte :: text') where
  laid {vs rest} hrest hnumber := by
    have hmark : Laid (.mark m :: (us ++ vs)) (m.byte :: (text' ++ rest)) :=
      .cons (List.forall_mem_nil _) (t := .mark m) rfl trivial (h'.laid hrest hnumber)
    have hstart : isNumberByte m.byte = false := by cases m <;> rfl
    rw [List.append_assoc, List.append_assoc]
    exact h.laid hmark hstart
  visible := by
    have hmark := Token.IsText.visible (t := .mark m) rfl
    simp only [List.forall_mem_append, List.forall_mem_cons] at hmark ⊢
    exact ⟨h.visible, hmark.1, h'.visible⟩

theorem spells_commaSeparated {tss : List (List Token)} {texts : List Bytes}
    (h : List.Forall₂ Spells tss texts) :
    Spells ([.mark .comma].intercalate tss) (commaSeparated texts) := by
  induction h with
  | nil => exact .nil
  | @cons ts text tss texts h hs ih =>
    cases hs with
    | nil => simpa [commaSeparated] using h
    | cons h' hs =>
      rw [List.intercalate_cons_cons, commaSeparated, List.append_assoc, List.append_assoc]
      · exact h.append_mark .comma ih
      · rintro ⟨⟩

theorem spells_array {values : List Value} {texts : List Bytes}
    (h : List.Forall₂ (fun v => Spells v.tokens) values texts) :
    Spells (Value.array values).tokens (array texts) := by
  have hvalues := spells_commaSeparated (List.forall₂_map_left_iff.mpr h)
  rw [tokens_array]
  exact Spells.nil.append_mark .openBracket (hvalues.append_mark .closeBracket .nil)

theorem spells_object {members : List (Bytes × Value)} {fields : List Bytes}
    (h : List.Forall₂ (fun m => Spells (memberTokens m)) members fields) :
    Spells (Value.object members).tokens (object fields) := by
  have hmembers := spells_commaSeparated (List.forall₂_map_left_iff.mpr h)
  rw [tokens_object]
  exact Spells.nil.append_mark .openBrace (hmembers.append_mark .closeBrace .nil)

/-- A line that writes a value is JSON for it. -/
theorem Spells.isText_line {v : Value} {text : Bytes} (h : Spells v.tokens text) :
    v.IsText (text ++ [Byte.lf]) := by
  have hlf : Laid [] [Byte.lf] := .nil (List.forall_mem_singleton.mpr rfl)
  have hlaid := h.laid hlf rfl
  rwa [List.append_nil] at hlaid

/-! ## Writing strings -/

theorem hexValue?_hexDigit : ∀ n < 16, hexValue? (hexDigit n) = some n := by
  decide

theorem unit?_hex4 (c : UInt8) : unit? (hex4 c) = some c.toNat := by
  have hlt : c.toNat < 256 := c.toNat_lt
  have hzero : hexValue? Byte.zero = some 0 := rfl
  have hhigh := hexValue?_hexDigit (c.toNat / 16) (by omega)
  have hlow := hexValue?_hexDigit (c.toNat % 16) (by omega)
  simp [hex4, unit?, hzero, hhigh, hlow]
  omega

/-- An escaped byte is a character that stands for the byte. -/
theorem isChar_escapeByte (c : UInt8) : IsChar [c] (escapeByte c) := by
  unfold escapeByte
  split_ifs with hquote hbackslash _ _ _ _ _ hcontrol
  iterate 7
    · obtain rfl := ‹c = _›
      exact .short (by decide)
  · have hlt : c.toNat < 0x20 := UInt8.lt_iff_toNat_lt.mp hcontrol
    have hutf8 : utf8 c.toNat = [c] := by simp [utf8, show c.toNat < 0x80 by omega]
    rw [← hutf8]
    refine .units (.single (unit?_hex4 c) ?_ ?_)
    · unfold IsHigh
      omega
    · unfold IsLow
      omega
  · exact .plain (UInt8.not_lt.mp hcontrol) hquote hbackslash

/-- Bytes that are each written as a character make up the inside of a string. -/
theorem isBody_flatMap {f : UInt8 → Bytes} {s : Bytes} (h : ∀ c ∈ s, IsChar [c] (f c)) :
    IsBody s (s.flatMap f) := by
  induction s with
  | nil => exact .nil
  | cons c s ih =>
    obtain ⟨hc, hs⟩ := List.forall_mem_cons.mp h
    exact .cons hc (ih hs)

/-- Escaped bytes stand for themselves as the inside of a string. -/
theorem isBody_escape (s : Bytes) : IsBody s (escape s) :=
  isBody_flatMap fun c _ => isChar_escapeByte c

theorem spells_string (s : Bytes) : Spells (Value.atom (.string s)).tokens (string s) := by
  rw [Value.tokens]
  exact spells_token ⟨escape s, isBody_escape s, rfl⟩

theorem spells_field {v : Value} {text : Bytes} (name : String) (h : Spells v.tokens text) :
    Spells (memberTokens (ascii name, v)) (field name text) := by
  have hname := spells_string (ascii name)
  rw [Value.tokens] at hname
  rw [field, List.append_assoc]
  exact hname.append_mark .colon h

/-! ## Writing numbers -/

theorem isDigit_digit : ∀ n < 10, Byte.isDigit (digit n) = true := by
  decide

theorem isDigit_of_mem_decimal {n : Nat} {c : UInt8} (h : c ∈ decimal n) :
    Byte.isDigit c = true := by
  fun_induction decimal n with
  | case1 n hn =>
    rw [List.mem_singleton.mp h]
    exact isDigit_digit n hn
  | case2 n hn ih =>
    rcases List.mem_append.mp h with h | h
    · exact ih h
    · rw [List.mem_singleton.mp h]
      exact isDigit_digit _ (Nat.mod_lt n (by decide))

/-- A number has no leading zero. -/
theorem exists_cons_decimal (n : Nat) :
    ∃ c more, decimal n = c :: more ∧ (c = Byte.zero → more = []) := by
  suffices h : ∃ c more, decimal n = c :: more ∧ (c = Byte.zero → n = 0) by
    obtain ⟨c, more, heq, hzero⟩ := h
    refine ⟨c, more, heq, fun hc => ?_⟩
    rw [hzero hc, decimal] at heq
    exact (List.cons.inj heq).2.symm
  have hdigit : ∀ n < 10, digit n = Byte.zero → n = 0 := by decide
  fun_induction decimal n with
  | case1 n hn => exact ⟨digit n, [], rfl, hdigit n hn⟩
  | case2 n hn ih =>
    obtain ⟨c, more, heq, hzero⟩ := ih
    rw [heq]
    refine ⟨c, _, rfl, fun hc => ?_⟩
    have hdiv := hzero hc
    omega

/-- A number in base ten is a number of JSON. -/
theorem isNumber_decimal (n : Nat) : IsNumber (decimal n) := by
  obtain ⟨c, more, heq, hzero⟩ := exists_cons_decimal n
  have hdigits : ∀ d ∈ c :: more, Byte.isDigit d = true :=
    fun d hd => isDigit_of_mem_decimal (heq ▸ hd)
  have hc := hdigits c List.mem_cons_self
  have hminus : c ≠ Byte.minus := by
    rintro rfl
    revert hc
    decide
  have hwhole : afterWhole? (c :: more) = some [] := by
    unfold afterWhole?
    split
    · rename_i hstart
      rw [hzero (eq_of_beq hstart)]
      rfl
    · have hstart : Bytes.startsIn Byte.isDigit (c :: more) = true := hc
      rw [afterDigits?, if_pos hstart, List.dropWhile_eq_nil_iff.mpr hdigits]
  rw [heq, IsNumber, afterOne, if_neg (by simpa using hminus), hwhole]
  rfl

theorem spells_decimal (n : Nat) :
    Spells (Value.atom (.number (decimal n))).tokens (decimal n) := by
  rw [Value.tokens]
  exact spells_token ⟨isNumber_decimal n, rfl⟩

/-- The number that decimal digits make. -/
def natural (digits : Bytes) : Nat :=
  digits.foldl (fun n c => n * 10 + (c.toNat - Byte.zero.toNat)) 0

theorem natural_decimal (n : Nat) : natural (decimal n) = n := by
  have hdigit : ∀ n < 10, (digit n).toNat - Byte.zero.toNat = n := by decide
  fun_induction decimal n with
  | case1 n hn => simp [natural, hdigit n hn]
  | case2 n hn ih =>
    rw [natural] at ih ⊢
    rw [List.foldl_append, ih, List.foldl_cons, List.foldl_nil,
      hdigit _ (Nat.mod_lt n (by decide))]
    omega

/-! ## Reading values -/

namespace Value

/-- The value of the only member with a name. -/
def member? (name : String) : Value → Option Value
  | .object members =>
    match members.filter (·.1 == ascii name) with
    | [m] => some m.2
    | _ => none
  | _ => none

/-- The bytes that a string stands for. -/
def bytes? : Value → Option Bytes
  | .atom (.string s) => some s
  | _ => none

/-- A number of 32 bits, written with digits only. -/
def word? : Value → Option UInt32
  | .atom (.number literal) =>
    if literal.all Byte.isDigit ∧ natural literal < UInt32.size then
      some (UInt32.ofNat (natural literal))
    else none
  | _ => none

/-- The values of an array. -/
def values? : Value → Option (List Value)
  | .array values => some values
  | _ => none

end Value

theorem word?_decimal (n : UInt32) : (Value.atom (.number (decimal n.toNat))).word? = some n := by
  have hdigits : (decimal n.toNat).all Byte.isDigit = true :=
    List.all_eq_true.mpr fun c hc => isDigit_of_mem_decimal hc
  rw [Value.word?, natural_decimal, if_pos ⟨hdigits, n.toNat_lt⟩, UInt32.ofNat_toNat]

end Json

open Json (Value Spells spells_array spells_object spells_field spells_string spells_decimal)

/-! ## Diagnostics as values -/

/-- The value that a location is written as. -/
def Location.value (l : Location) : Value :=
  .object [(ascii "line", .atom (.number (decimal l.line.toNat))),
    (ascii "column", .atom (.number (decimal l.column.toNat)))]

def Span.value (s : Span) : Value :=
  .object [(ascii "file", .atom (.string s.file)), (ascii "start", s.start.value),
    (ascii "end", s.stop.value)]

def Fix.value (f : Fix) : Value :=
  .object [(ascii "description", .atom (.string f.description)),
    (ascii "replacement", .atom (.string f.replacement)), (ascii "span", f.span.value)]

/-- The members of the object that a diagnostic is written as. -/
def Diagnostic.members (d : Diagnostic) : List (Bytes × Value) :=
  [(ascii "severity", .atom (.string (ascii "error"))), (ascii "code", .atom (.string d.code)),
    (ascii "message", .atom (.string d.message)), (ascii "span", d.span.value),
    (ascii "fixes", .array (d.fixes.map Fix.value))]

theorem Location.spells (l : Location) : Spells l.value.tokens l.json :=
  spells_object (.cons (spells_field "line" (spells_decimal _))
    (.cons (spells_field "column" (spells_decimal _)) .nil))

theorem Span.spells (s : Span) : Spells s.value.tokens s.json :=
  spells_object (.cons (spells_field "file" (spells_string _))
    (.cons (spells_field "start" s.start.spells)
      (.cons (spells_field "end" s.stop.spells) .nil)))

theorem Fix.spells (f : Fix) : Spells f.value.tokens f.json :=
  spells_object (.cons (spells_field "description" (spells_string _))
    (.cons (spells_field "replacement" (spells_string _))
      (.cons (spells_field "span" f.span.spells) .nil)))

/-- The text of a diagnostic writes the object with its members. -/
theorem Diagnostic.spells (d : Diagnostic) : Spells (Value.object d.members).tokens d.json := by
  have hfixes : Spells (Value.array (d.fixes.map Fix.value)).tokens
      (Json.array (d.fixes.map Fix.json)) := by
    refine spells_array ?_
    rw [List.forall₂_map_left_iff, List.forall₂_map_right_iff]
    exact List.forall₂_same.mpr fun f _ => f.spells
  exact spells_object (.cons (spells_field "severity" (spells_string _))
    (.cons (spells_field "code" (spells_string _))
      (.cons (spells_field "message" (spells_string _))
        (.cons (spells_field "span" d.span.spells)
          (.cons (spells_field "fixes" hfixes) .nil)))))

theorem Diagnostic.isText_json (d : Diagnostic) :
    (Value.object d.members).IsText (d.json ++ [Byte.lf]) :=
  d.spells.isText_line

/-! ## Diagnostics from values -/

/-- A location with the line and the column that a value gives. -/
def Location.ofValue? (v : Value) : Option Location := do
  let line ← (← v.member? "line").word?
  let column ← (← v.member? "column").word?
  return ⟨line, column, 0, 0⟩

def Span.ofValue? (v : Value) : Option Span := do
  let file ← (← v.member? "file").bytes?
  let start ← Location.ofValue? (← v.member? "start")
  let stop ← Location.ofValue? (← v.member? "end")
  return ⟨file, start, stop⟩

def Fix.ofValue? (v : Value) : Option Fix := do
  let description ← (← v.member? "description").bytes?
  let replacement ← (← v.member? "replacement").bytes?
  let span ← Span.ofValue? (← v.member? "span")
  return ⟨span, replacement, description⟩

def Diagnostic.ofValue? (v : Value) : Option Diagnostic := do
  let code ← (← v.member? "code").bytes?
  let message ← (← v.member? "message").bytes?
  let span ← Span.ofValue? (← v.member? "span")
  let fixes ← (← (← v.member? "fixes").values?).mapM Fix.ofValue?
  return ⟨code, message, span, fixes⟩

/-- A location without its offset and length. -/
def Location.told (l : Location) : Location :=
  ⟨l.line, l.column, 0, 0⟩

def Span.told (s : Span) : Span :=
  { s with start := s.start.told, stop := s.stop.told }

def Fix.told (f : Fix) : Fix :=
  { f with span := f.span.told }

/-- A diagnostic without what a line of JSON leaves out: offsets and lengths. -/
def Diagnostic.told (d : Diagnostic) : Diagnostic :=
  { d with span := d.span.told, fixes := d.fixes.map Fix.told }

theorem Location.ofValue?_value (l : Location) : ofValue? l.value = some l.told := by
  have hline : l.value.member? "line" = some (.atom (.number (decimal l.line.toNat))) := rfl
  have hcolumn : l.value.member? "column" = some (.atom (.number (decimal l.column.toNat))) := rfl
  simp [ofValue?, hline, hcolumn, Json.word?_decimal, told]

theorem Span.ofValue?_value (s : Span) : ofValue? s.value = some s.told := by
  have hfile : s.value.member? "file" = some (.atom (.string s.file)) := rfl
  have hstart : s.value.member? "start" = some s.start.value := rfl
  have hstop : s.value.member? "end" = some s.stop.value := rfl
  simp [ofValue?, hfile, hstart, hstop, Location.ofValue?_value, Value.bytes?, told]

theorem Fix.ofValue?_value (f : Fix) : ofValue? f.value = some f.told := by
  have hdescription : f.value.member? "description" = some (.atom (.string f.description)) := rfl
  have hreplacement : f.value.member? "replacement" = some (.atom (.string f.replacement)) := rfl
  have hspan : f.value.member? "span" = some f.span.value := rfl
  simp [ofValue?, hdescription, hreplacement, hspan, Span.ofValue?_value, Value.bytes?, told]

theorem Fix.mapM_ofValue? (fixes : List Fix) :
    (fixes.map Fix.value).mapM ofValue? = some (fixes.map Fix.told) := by
  induction fixes with
  | nil => rfl
  | cons f fixes ih => simp [ofValue?_value, ih]

theorem Diagnostic.ofValue?_members (d : Diagnostic) :
    ofValue? (.object d.members) = some d.told := by
  have hcode : (Value.object d.members).member? "code" = some (.atom (.string d.code)) := rfl
  have hmessage : (Value.object d.members).member? "message" =
    some (.atom (.string d.message)) := rfl
  have hspan : (Value.object d.members).member? "span" = some d.span.value := rfl
  have hfixes : (Value.object d.members).member? "fixes" =
    some (.array (d.fixes.map Fix.value)) := rfl
  simp [ofValue?, hcode, hmessage, hspan, hfixes, Span.ofValue?_value, Fix.mapM_ofValue?,
    Value.bytes?, Value.values?, told, -List.mapM_map]

/-- A diagnostic in JSON is one line without control bytes. It is JSON for one value, an object from
which all of the diagnostic is read back but offsets and lengths. Any bytes may stand in it, since
an escaped string stands for the bytes it was made of. -/
theorem Emitter.json_line_decodes (e : Emitter) (d : Diagnostic) :
    (∃ body members, ({ e with format := .json }.emit d).1 = body ++ [Byte.lf] ∧
      (∀ c ∈ body, 0x20 ≤ c) ∧
      (∀ v : Value, v.IsText (body ++ [Byte.lf]) ↔ v = .object members) ∧
      Json.decode? (body ++ [Byte.lf]) = some (.object members) ∧
      Diagnostic.ofValue? (.object members) = some d.told) ∧
    ∀ s, Json.unescape? (Json.escape s) = some s := by
  have hdecode := Json.decode?_eq_some_iff.mpr d.isText_json
  refine ⟨⟨d.json, d.members, rfl, d.spells.visible, fun v => ?_, hdecode, d.ofValue?_members⟩,
    fun s => Json.unescape?_eq_some_iff.mpr (Json.isBody_escape s)⟩
  rw [← Json.decode?_eq_some_iff, hdecode, Option.some.injEq]
  exact eq_comm

end TextDomain
