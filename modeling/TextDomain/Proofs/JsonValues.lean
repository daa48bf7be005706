import TextDomain.Proofs.JsonTokens

/-!
# The values of JSON

A value is written with a list of tokens (`Value.tokens`), and a text is JSON for a value if it is
laid out with them (`Value.IsText`).

`parse` reads tokens one by one. The arrays and objects that are still open stand on a stack. Along
the way the tokens that were read and those that are left are the tokens of the value that comes out
(`tokens_of_parse`), and the tokens of a value are read as that value wherever one is due (`reads`).
So `decode?` reads exactly the texts of the grammar, each as the one value it is JSON for
(`decode?_eq_some_iff`).
-/

namespace TextDomain

namespace Json

/-! ## Values and their tokens -/

/-- A JSON value. Members have an order, and their names may repeat. -/
inductive Value where
  | atom (a : Atom)
  | array (values : List Value)
  | object (members : List (Bytes × Value))

/-- The tokens that a value is written with. -/
def Value.tokens : Value → List Token
  | .atom a => [.atom a]
  | .array values =>
    .mark .openBracket ::
      ([.mark .comma].intercalate (values.map fun v => v.tokens) ++ [.mark .closeBracket])
  | .object members =>
    .mark .openBrace ::
      ([.mark .comma].intercalate
        (members.map fun m => .atom (.string m.1) :: .mark .colon :: m.2.tokens) ++
        [.mark .closeBrace])
decreasing_by
  · rename_i hv
    have hlt := List.sizeOf_lt_of_mem hv
    simp only [Value.array.sizeOf_spec]
    omega
  · rename_i hm
    have hlt := List.sizeOf_lt_of_mem hm
    have hpair : sizeOf m.2 < sizeOf m := by
      obtain ⟨name, v⟩ := m
      simp only [Prod.mk.sizeOf_spec]
      omega
    simp only [Value.object.sizeOf_spec]
    omega

/-! ## Parsing -/

/-- A value of which the end has not been read yet. -/
inductive Frame where
  | array (values : List Value)
  /-- An object up to the name of a member. -/
  | object (members : List (Bytes × Value)) (name : Bytes)

/-- Reads tokens within some open arrays and objects, the innermost first. A value is due, or one
has just been read. -/
def parse : List Frame → Option Value → List Token → Option Value
  | frames, none, .atom a :: ts => parse frames (some (.atom a)) ts
  | frames, none, .mark .openBracket :: .mark .closeBracket :: ts =>
    parse frames (some (.array [])) ts
  | frames, none, .mark .openBracket :: ts => parse (.array [] :: frames) none ts
  | frames, none, .mark .openBrace :: .mark .closeBrace :: ts =>
    parse frames (some (.object [])) ts
  | frames, none, .mark .openBrace :: .atom (.string name) :: .mark .colon :: ts =>
    parse (.object [] name :: frames) none ts
  | [], some v, [] => some v
  | .array values :: frames, some v, .mark .comma :: ts =>
    parse (.array (values ++ [v]) :: frames) none ts
  | .array values :: frames, some v, .mark .closeBracket :: ts =>
    parse frames (some (.array (values ++ [v]))) ts
  | .object members name :: frames, some v,
      .mark .comma :: .atom (.string next) :: .mark .colon :: ts =>
    parse (.object (members ++ [(name, v)]) next :: frames) none ts
  | .object members name :: frames, some v, .mark .closeBrace :: ts =>
    parse frames (some (.object (members ++ [(name, v)]))) ts
  | _, _, _ => none

/-- The tokens of a member. -/
def memberTokens (m : Bytes × Value) : List Token :=
  .atom (.string m.1) :: .mark .colon :: m.2.tokens

theorem tokens_array (values : List Value) : (Value.array values).tokens =
    .mark .openBracket ::
      ([.mark .comma].intercalate (values.map Value.tokens) ++ [.mark .closeBracket]) := by
  rw [Value.tokens]

theorem tokens_object (members : List (Bytes × Value)) : (Value.object members).tokens =
    .mark .openBrace ::
      ([.mark .comma].intercalate (members.map memberTokens) ++ [.mark .closeBrace]) := by
  rw [Value.tokens]
  rfl

/-- The tokens that were read of an open array or object. -/
def Frame.tokens : Frame → List Token
  | .array values => .mark .openBracket :: (values.map Value.tokens).flatMap (· ++ [.mark .comma])
  | .object members name =>
    .mark .openBrace :: ((members.map memberTokens).flatMap (· ++ [.mark .comma]) ++
      [.atom (.string name), .mark .colon])

/-- The tokens that were read of some open arrays and objects, the innermost first. -/
def openTokens : List Frame → List Token
  | [] => []
  | frame :: frames => openTokens frames ++ frame.tokens

theorem intercalate_concat {α : Type} (sep : List α) (xs : List (List α)) (x : List α) :
    sep.intercalate (xs ++ [x]) = xs.flatMap (· ++ sep) ++ x := by
  induction xs with
  | nil => simp
  | cons y xs ih =>
    cases xs with
    | nil => simp
    | cons z xs =>
      rw [List.cons_append, List.cons_append, List.intercalate_cons_cons, ← List.cons_append, ih]
      simp

theorem intercalate_cons {α : Type} (sep x : List α) (xs : List (List α)) :
    sep.intercalate (x :: xs) = x ++ xs.flatMap (sep ++ ·) := by
  induction xs generalizing x with
  | nil => simp
  | cons y xs ih => simp [List.intercalate_cons_cons, ih]

/-- What was read and what is left are the tokens of the value that comes out. -/
theorem tokens_of_parse {frames : List Frame} {v : Option Value} {ts : List Token} {root : Value}
    (h : parse frames v ts = some root) :
    openTokens frames ++ (v.elim [] Value.tokens ++ ts) = root.tokens := by
  -- a value is due in the first five cases, and one has just been read in the next five
  fun_induction parse frames v ts with
  | case1 frames a ts ih => simpa [Value.tokens] using ih h
  | case2 frames ts ih => simpa [Value.tokens] using ih h
  | case3 frames ts hne ih => simpa [openTokens, Frame.tokens] using ih h
  | case4 frames ts ih => simpa [Value.tokens] using ih h
  | case5 frames name ts ih => simpa [openTokens, Frame.tokens] using ih h
  | case6 v =>
    cases h
    simp [openTokens]
  | case7 values frames v ts ih => simpa [openTokens, Frame.tokens] using ih h
  | case8 values frames v ts ih =>
    simpa [openTokens, Frame.tokens, tokens_array, intercalate_concat] using ih h
  | case9 members name frames v next ts ih =>
    simpa [openTokens, Frame.tokens, memberTokens] using ih h
  | case10 members name frames v ts ih =>
    simpa [openTokens, Frame.tokens, tokens_object, memberTokens, intercalate_concat] using ih h
  | case11 => cases h

theorem head?_tokens_ne (v : Value) (ts : List Token) :
    (v.tokens ++ ts).head? ≠ some (.mark .closeBracket) := by
  cases v <;> simp [Value.tokens]

theorem parse_openBracket {ts : List Token} (h : ts.head? ≠ some (.mark .closeBracket))
    (frames : List Frame) :
    parse frames none (.mark .openBracket :: ts) = parse (.array [] :: frames) none ts := by
  rw [parse]
  rintro later rfl
  exact h rfl

/-- A value is read whole, wherever it is due. -/
def Reads (v : Value) : Prop :=
  ∀ frames ts, parse frames none (v.tokens ++ ts) = parse frames (some v) ts

/-- The rest of an array is read after one of its values. -/
theorem parse_values {values : List Value} (hvalues : ∀ w ∈ values, Reads w)
    (before : List Value) (v : Value) (frames : List Frame) (ts : List Token) :
    parse (.array before :: frames) (some v)
        (values.flatMap (fun w => .mark .comma :: w.tokens) ++ .mark .closeBracket :: ts) =
      parse frames (some (.array (before ++ v :: values))) ts := by
  induction values generalizing before v with
  | nil => rw [List.flatMap_nil, List.nil_append, parse]
  | cons w values ih =>
    obtain ⟨hw, hvalues⟩ := List.forall_mem_cons.mp hvalues
    rw [List.flatMap_cons, List.cons_append, List.cons_append, parse, List.append_assoc, hw,
      ih hvalues, List.append_assoc, List.singleton_append]

/-- The rest of an object is read after the value of one of its members. -/
theorem parse_members {members : List (Bytes × Value)} (hmembers : ∀ m ∈ members, Reads m.2)
    (before : List (Bytes × Value)) (name : Bytes) (v : Value) (frames : List Frame)
    (ts : List Token) :
    parse (.object before name :: frames) (some v)
        (members.flatMap (fun m => .mark .comma :: memberTokens m) ++ .mark .closeBrace :: ts) =
      parse frames (some (.object (before ++ (name, v) :: members))) ts := by
  induction members generalizing before name v with
  | nil => rw [List.flatMap_nil, List.nil_append, parse]
  | cons m members ih =>
    obtain ⟨hm, hmembers⟩ := List.forall_mem_cons.mp hmembers
    rw [List.flatMap_cons, memberTokens]
    simp only [List.cons_append, List.append_assoc]
    rw [parse, hm, ih hmembers, List.append_assoc, List.singleton_append]

/-- The tokens of a value are read as that value. -/
theorem reads (v : Value) : Reads v := by
  induction v using Value.tokens.induct with
  | case1 a =>
    intro frames ts
    rw [Value.tokens, List.singleton_append, parse]
  | case2 values ih =>
    intro frames ts
    rw [tokens_array]
    cases values with
    | nil => simp [parse]
    | cons v values =>
      obtain ⟨hv, hvalues⟩ := List.forall_mem_cons.mp ih
      rw [List.map_cons, intercalate_cons, List.flatMap_map]
      simp only [List.cons_append, List.append_assoc]
      rw [parse_openBracket (head?_tokens_ne v _), hv]
      exact parse_values hvalues [] v frames ts
  | case3 members ih =>
    intro frames ts
    rw [tokens_object]
    cases members with
    | nil => simp [parse]
    | cons m members =>
      obtain ⟨hm, hmembers⟩ := List.forall_mem_cons.mp ih
      rw [List.map_cons, intercalate_cons, List.flatMap_map, memberTokens]
      simp only [List.cons_append, List.append_assoc]
      rw [parse, hm]
      exact parse_members hmembers [] _ _ _ _

/-! ## Decoding -/

/-- A text is JSON for a value. -/
def Value.IsText (v : Value) (s : Bytes) : Prop :=
  Laid v.tokens s

/-- The value that a text is JSON for. -/
def decode? (s : Bytes) : Option Value :=
  (tokens? s).bind (parse [] none)

theorem parse_eq_some_iff {ts : List Token} {v : Value} :
    parse [] none ts = some v ↔ ts = v.tokens := by
  constructor
  · intro h
    exact tokens_of_parse h
  · rintro rfl
    have hread := reads v [] []
    rwa [List.append_nil, parse] at hread

/-- The decoder reads exactly the texts that the grammar allows. -/
theorem decode?_eq_some_iff {s : Bytes} {v : Value} : decode? s = some v ↔ v.IsText s := by
  rw [decode?, Option.bind_eq_some_iff, Value.IsText]
  constructor
  · rintro ⟨ts, hts, hv⟩
    rw [← parse_eq_some_iff.mp hv]
    exact tokens?_eq_some_iff.mp hts
  · intro h
    exact ⟨v.tokens, tokens?_eq_some_iff.mpr h, parse_eq_some_iff.mpr rfl⟩

/-- A text is JSON for one value at most. -/
theorem Value.IsText.eq_iff {s : Bytes} {v w : Value} (h : v.IsText s) : w.IsText s ↔ w = v := by
  rw [← decode?_eq_some_iff, decode?_eq_some_iff.mpr h, Option.some.injEq]
  exact eq_comm

end Json

end TextDomain
