import TextDomain.Log.Record
import TextDomain.Proofs.JsonLines

/-!
# Log records read back from JSON

A record in JSON is an object of four members. Its module and the name of its level are written as
they are, and its message is escaped byte by byte. The escapes cover quotes, backslashes, line ends
and tabs (`Record.isBody_message`); any other control byte is written as it is.

In a JSON text all control bytes are blanks between tokens (`Json.Laid.visible_or_blank`). So a
control byte that is left as it is, such as an escape character, makes the line no JSON at all
(`Record.isCovered_of_isText`). All other messages are read back, with what else the line tells of
the record (`Record.Told`).
-/

namespace TextDomain

namespace Json

/-- In a JSON text control bytes stand between tokens only, as blanks. -/
theorem Laid.visible_or_blank {ts : List Token} {s : Bytes} (h : Laid ts s) :
    ∀ c ∈ s, 0x20 ≤ c ∨ isBlank c = true := by
  induction h with
  | nil hblanks => exact fun c hc => .inr (hblanks c hc)
  | cons hblanks htext _ _ ih =>
    simp only [List.forall_mem_append]
    exact ⟨fun c hc => .inr (hblanks c hc), fun c hc => .inl (htext.visible c hc), ih⟩

/-! ## Plain strings -/

/-- A byte that stands for itself in a string. -/
def IsPlain (c : UInt8) : Prop :=
  0x20 ≤ c ∧ c ≠ Byte.doubleQuote ∧ c ≠ Byte.backslash

instance (c : UInt8) : Decidable (IsPlain c) :=
  inferInstanceAs (Decidable (_ ∧ _))

theorem isBody_of_isPlain {s : Bytes} (h : ∀ c ∈ s, IsPlain c) : IsBody s s := by
  have hchars : ∀ c ∈ s, IsChar [c] [c] := by
    intro c hc
    obtain ⟨hvisible, hquote, hbackslash⟩ := h c hc
    exact .plain hvisible hquote hbackslash
  have hbody := isBody_flatMap hchars
  rwa [List.flatMap_singleton'] at hbody

/-- A text between quotes. -/
def quoted (body : Bytes) : Bytes :=
  Byte.doubleQuote :: (body ++ [Byte.doubleQuote])

theorem spells_quoted {s body : Bytes} (h : IsBody s body) :
    Spells (Value.atom (.string s)).tokens (quoted body) := by
  rw [Value.tokens]
  exact spells_token ⟨body, h, rfl⟩

/-! ## Numbers with a sign -/

theorem isNumber_minus_cons {s : Bytes} (h : Bytes.startsIn (· == Byte.minus) s = false) :
    IsNumber (Byte.minus :: s) ↔ IsNumber s := by
  simp [IsNumber, afterOne, h]

theorem startsIn_minus_decimal (n : Nat) :
    Bytes.startsIn (· == Byte.minus) (decimal n) = false := by
  obtain ⟨c, more, heq, -⟩ := exists_cons_decimal n
  have hdigit : Byte.isDigit c = true := isDigit_of_mem_decimal (heq ▸ List.mem_cons_self)
  rw [heq, Bytes.startsIn_cons, beq_eq_false_iff_ne]
  rintro rfl
  revert hdigit
  decide

theorem isNumber_signed : ∀ n : Int, IsNumber (signed n)
  | .ofNat n => isNumber_decimal n
  | .negSucc _ => (isNumber_minus_cons (startsIn_minus_decimal _)).mpr (isNumber_decimal _)

theorem spells_signed (n : Int) :
    Spells (Value.atom (.number (signed n))).tokens (signed n) := by
  rw [Value.tokens]
  exact spells_token ⟨isNumber_signed n, rfl⟩

/-- A whole number. -/
def Value.integer? : Value → Option Int
  | .atom (.number literal) =>
    let digits := afterOne (· == Byte.minus) literal
    if digits.all Byte.isDigit then
      some (if Bytes.startsIn (· == Byte.minus) literal then -natural digits else natural digits)
    else none
  | _ => none

theorem integer?_signed (n : Int) : (Value.atom (.number (signed n))).integer? = some n := by
  have hdigits : ∀ n, (decimal n).all Byte.isDigit = true := fun _ =>
    List.all_eq_true.mpr fun c hc => isDigit_of_mem_decimal hc
  cases n with
  | ofNat n =>
    simp [Value.integer?, signed, afterOne, startsIn_minus_decimal, hdigits, natural_decimal]
  | negSucc n =>
    simp [Value.integer?, signed, afterOne, hdigits, natural_decimal, Int.negSucc_eq]

end Json

open Json (Value Spells IsPlain)

/-! ## Messages -/

namespace Record

/-- A byte that is escaped in a message, or needs no escape. -/
def IsCovered (c : UInt8) : Prop :=
  0x20 ≤ c ∨ c = Byte.lf ∨ c = Byte.cr ∨ c = Byte.tab

instance (c : UInt8) : Decidable (IsCovered c) :=
  inferInstanceAs (Decidable (_ ∨ _))

theorem isChar_escapeByte {c : UInt8} (h : IsCovered c) : Json.IsChar [c] (escapeByte c) := by
  unfold escapeByte
  split_ifs with hquote hbackslash hlf hcr htab
  iterate 5
    · obtain rfl := ‹c = _›
      exact .short (by decide)
  · refine .plain (h.resolve_right ?_) hquote hbackslash
    rintro (h | h | h) <;> contradiction

/-- An escaped message stands for the message. -/
theorem isBody_message {message : Bytes} (h : ∀ c ∈ message, IsCovered c) :
    Json.IsBody message (message.flatMap escapeByte) :=
  Json.isBody_flatMap fun c hc => isChar_escapeByte (h c hc)

/-- A byte that is not covered is left as it is. -/
theorem escapeByte_of_not_isCovered {c : UInt8} (h : ¬ IsCovered c) : escapeByte c = [c] := by
  have hne : ∀ d, IsCovered d → c ≠ d := by
    rintro d hd rfl
    exact h hd
  rw [escapeByte, if_neg (hne _ (by decide)), if_neg (hne _ (by decide)),
    if_neg (hne _ (by decide)), if_neg (hne _ (by decide)), if_neg (hne _ (by decide))]

theorem lf_not_mem_escapeByte (c : UInt8) : Byte.lf ∉ escapeByte c := by
  unfold escapeByte
  split_ifs with hquote hbackslash hlf
  iterate 5
    · decide
  · exact fun hmem => hlf (List.mem_singleton.mp hmem).symm

end Record

theorem Level.isPlain_name (level : Level) : ∀ c ∈ level.name, IsPlain c := by
  have hnames : ∀ entry ∈ names, ∀ c ∈ ascii entry.2, IsPlain c := by decide +kernel
  unfold name
  split
  · rename_i text htext
    obtain ⟨before, later, heq, -⟩ := List.lookup_eq_some_iff.mp htext
    exact hnames (level, text) (by rw [heq]; simp)
  · decide +kernel

/-! ## Records as values -/

namespace Record

/-- The members of the object that a record is written as. -/
def members (r : Record) : List (Bytes × Value) :=
  [(ascii "ts", .atom (.number (signed r.time))), (ascii "level", .atom (.string r.level.name)),
    (ascii "module", .atom (.string r.module)), (ascii "msg", .atom (.string r.message))]

/-- The object that a record is written as, without the line end. -/
def object (r : Record) : Bytes :=
  Json.object [Json.field "ts" (signed r.time), Json.field "level" (Json.quoted r.level.name),
    Json.field "module" (Json.quoted r.module),
    Json.field "msg" (Json.quoted (r.message.flatMap escapeByte))]

theorem json_eq (r : Record) : r.json = r.object ++ [Byte.lf] := by
  simp only [json, object, Json.object, Json.commaSeparated, Json.field, Json.quoted,
    List.append_assoc, List.cons_append]
  rfl

/-- The line ends of a message are escaped, and nothing else in the object has any. -/
theorem lf_not_mem_object {r : Record} (hmodule : ∀ c ∈ r.module, IsPlain c) :
    Byte.lf ∉ r.object := by
  have hplain : ¬ IsPlain Byte.lf := by decide
  have htime : Byte.lf ∉ signed r.time := fun h =>
    absurd ((Json.isNumber_signed r.time).bytes _ h) (by decide)
  have hlevel : Byte.lf ∉ r.level.name := fun h => hplain (r.level.isPlain_name _ h)
  have hname : Byte.lf ∉ r.module := fun h => hplain (hmodule _ h)
  have hmessage : Byte.lf ∉ r.message.flatMap escapeByte := by
    simp [lf_not_mem_escapeByte]
  simp only [object, Json.object, Json.commaSeparated, Json.field, Json.quoted, List.mem_append,
    List.mem_cons, htime, hlevel, hname, hmessage]
  decide

theorem spells_object {r : Record} (hmodule : ∀ c ∈ r.module, IsPlain c)
    (hmessage : ∀ c ∈ r.message, IsCovered c) :
    Spells (Value.object r.members).tokens r.object := by
  have hlevel := Json.isBody_of_isPlain r.level.isPlain_name
  exact Json.spells_object (.cons (Json.spells_field "ts" (Json.spells_signed r.time))
    (.cons (Json.spells_field "level" (Json.spells_quoted hlevel))
      (.cons (Json.spells_field "module" (Json.spells_quoted (Json.isBody_of_isPlain hmodule)))
        (.cons (Json.spells_field "msg" (Json.spells_quoted (isBody_message hmessage))) .nil))))

theorem isText_json {r : Record} (hmodule : ∀ c ∈ r.module, IsPlain c)
    (hmessage : ∀ c ∈ r.message, IsCovered c) : (Value.object r.members).IsText r.json := by
  rw [json_eq]
  exact (spells_object hmodule hmessage).isText_line

/-- A line that is JSON for anything has a message without control bytes that are not covered. -/
theorem isCovered_of_isText {r : Record} {v : Value} (h : v.IsText r.json) :
    ∀ c ∈ r.message, IsCovered c := by
  intro c hc
  by_contra hnot
  have hmem : c ∈ r.json := by
    have hbyte : c ∈ escapeByte c := by
      rw [escapeByte_of_not_isCovered hnot]
      exact List.mem_singleton_self c
    have hmessage : c ∈ r.message.flatMap escapeByte := List.mem_flatMap.mpr ⟨c, hc, hbyte⟩
    simp only [json, List.mem_append, hmessage, or_true, true_or]
  rcases h.visible_or_blank c hmem with hvisible | hblank
  · exact hnot (.inl hvisible)
  · simp only [Json.isBlank, Bool.or_eq_true, beq_iff_eq] at hblank
    rcases hblank with ((rfl | rfl) | rfl) | rfl <;> exact hnot (by decide)

/-! ## Records from values -/

/-- What a line of JSON tells of a record: of its level only the name. -/
structure Told where
  time : Int
  level : Bytes
  module : Bytes
  message : Bytes
  deriving DecidableEq, Repr

def told (r : Record) : Told :=
  ⟨r.time, r.level.name, r.module, r.message⟩

def Told.ofValue? (v : Value) : Option Told := do
  let time ← (← v.member? "ts").integer?
  let level ← (← v.member? "level").bytes?
  let module ← (← v.member? "module").bytes?
  let message ← (← v.member? "msg").bytes?
  return ⟨time, level, module, message⟩

theorem Told.ofValue?_members (r : Record) : ofValue? (.object r.members) = some r.told := by
  have htime : (Value.object r.members).member? "ts" =
    some (.atom (.number (signed r.time))) := rfl
  have hlevel : (Value.object r.members).member? "level" =
    some (.atom (.string r.level.name)) := rfl
  have hmodule : (Value.object r.members).member? "module" =
    some (.atom (.string r.module)) := rfl
  have hmessage : (Value.object r.members).member? "msg" =
    some (.atom (.string r.message)) := rfl
  simp [ofValue?, htime, hlevel, hmodule, hmessage, Json.integer?_signed, Value.bytes?, told]

/-- A record of a module with a plain name is one line in JSON. The line is JSON exactly if the
control bytes of the message are line ends and tabs only. Then it has no control byte but its end,
and it is JSON for one value, an object from which time, level name, module and message are read
back. -/
theorem json_line_iff (r : Record) (hmodule : ∀ c ∈ r.module, IsPlain c) :
    ∃ body, r.json = body ++ [Byte.lf] ∧ Byte.lf ∉ body ∧
      ((∃ v : Value, v.IsText r.json) ↔ ∀ c ∈ r.message, IsCovered c) ∧
      ((∀ c ∈ r.message, IsCovered c) → (∀ c ∈ body, 0x20 ≤ c) ∧
        ∃ members, (∀ v : Value, v.IsText r.json ↔ v = .object members) ∧
          Json.decode? r.json = some (.object members) ∧
          Told.ofValue? (.object members) = some r.told) := by
  refine ⟨r.object, r.json_eq, lf_not_mem_object hmodule, ?_, fun hmessage => ?_⟩
  · exact ⟨fun ⟨v, hv⟩ => isCovered_of_isText hv, fun h => ⟨_, isText_json hmodule h⟩⟩
  · have htext := isText_json hmodule hmessage
    exact ⟨(spells_object hmodule hmessage).visible, r.members, fun _ => htext.eq_iff,
      Json.decode?_eq_some_iff.mpr htext, Told.ofValue?_members r⟩

/-- A quote and a line end in a message are read back. An escape character is not escaped, and the
line is not JSON. -/
theorem json_line_iff_control :
    let good : Record := ⟨⟨.warn, ascii "lint", ascii "a\"b\nc"⟩, -5⟩
    let bad : Record := { good with message := [0x1b] }
    (∀ c ∈ good.module, IsPlain c) ∧ (∃ v, Json.decode? good.json = some v ∧
      Told.ofValue? v = some ⟨-5, ascii "WARN", ascii "lint", ascii "a\"b\nc"⟩) ∧
      ¬ ∃ v : Value, v.IsText bad.json := by
  intro good bad
  have hmodule : ∀ c ∈ good.module, IsPlain c := by decide +kernel
  obtain ⟨_, -, -, -, hgood⟩ := json_line_iff good hmodule
  obtain ⟨_, -, -, hbad, -⟩ := json_line_iff bad hmodule
  obtain ⟨-, members, -, hdecode, htold⟩ := hgood (by decide +kernel)
  exact ⟨hmodule, ⟨_, hdecode, htold⟩, fun h => absurd (hbad.mp h) (by decide +kernel)⟩

end Record

end TextDomain
