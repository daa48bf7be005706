import TextDomain.Proofs.Simulation

/-!
# Reading on from the middle

What a cursor reads depends on its mode and on what is left of the text. Its offset is only added to
the offsets of what it reads (`Cursor.take_shift`). A scanner keeps the whole content, what came
before its position included, and where its last token started. By the simulation that makes no
difference: after any number of tokens the rest of a content is scanned as if it were a content of
its own, in the mode that has been reached, and two contents that agree from there on are scanned
alike (`Scanner.scanning_resumes`).
-/

namespace TextDomain

/-! ## Moving everything by a number of bytes -/

namespace Token

/-- The token as it is `n` bytes further on. -/
def shift (n : Nat) (t : Token) : Token :=
  { t with offset := n + t.offset }

/-- A token that is moved is reported that much further on, in words. -/
theorem offset_span_shift (n : Nat) (t : Token) (file file' : Bytes) (starts starts' : List Nat) :
    ((t.shift n).span file starts).start.offset =
      UInt32.ofNat n + (t.span file' starts').start.offset :=
  UInt32.ofNat_add n t.offset

end Token

namespace LexError

def shift (n : Nat) (e : LexError) : LexError :=
  { e with offset := n + e.offset, stop := n + e.stop }

end LexError

theorem Trivia.length_le_of_unclosed? {pieces : List Trivia} {comment : Bytes}
    (h : unclosed? pieces = some comment) : comment.length ≤ (join pieces).length := by
  obtain ⟨piece, hpiece, hcomment⟩ := List.exists_of_findSome?_eq_some h
  obtain ⟨before, after, rfl⟩ := List.append_of_mem hpiece
  cases piece with
  | unclosed body =>
    obtain rfl : body = comment := Option.some.inj hcomment
    have htext : (unclosed body).text = body := rfl
    rw [join, List.flatMap_append, List.flatMap_cons, List.length_append, List.length_append, htext]
    omega
  | _ => cases hcomment

/-- What is unfinished is part of what was read. -/
theorem Reading.length_le_of_fault? {r : Reading} {fault : Fault} {length : Nat}
    (h : r.fault? = some (fault, length)) : length ≤ r.size := by
  unfold fault? at h
  split at h
  · rename_i comment hcomment
    obtain ⟨-, rfl⟩ := Prod.mk.inj (Option.some.inj h)
    exact Nat.le_trans (Trivia.length_le_of_unclosed? hcomment) (Nat.le_add_right _ _)
  · obtain ⟨_, -, heq⟩ := Option.map_eq_some_iff.mp h
    obtain ⟨-, rfl⟩ := Prod.mk.inj heq
    exact Nat.le_add_left _ _

namespace Step

def shift (n : Nat) (s : Step) : Step :=
  { s with offset := n + s.offset }

theorem token_shift (n : Nat) (s : Step) : (s.shift n).token = s.token.shift n := by
  simp only [token, Token.shift, start, shift, lexeme, Nat.add_assoc]

theorem error?_shift (n : Nat) (s : Step) :
    (s.shift n).error? = s.error?.map (LexError.shift n) := by
  unfold error?
  cases hfault : s.reading.fault? with
  | none => simp [shift, hfault]
  | some fault =>
    obtain ⟨fault, length⟩ := fault
    have hlength : length ≤ s.stop :=
      Nat.le_trans (Reading.length_le_of_fault? hfault) (Nat.le_add_left _ _)
    have hstop : (s.shift n).stop = n + s.stop := Nat.add_assoc _ _ _
    have hreading : (s.shift n).reading.fault? = some (fault, length) := hfault
    simp only [hreading, Option.map_some, hstop, LexError.shift, Nat.add_sub_assoc hlength]

theorem tokens_shift (n : Nat) (steps : List Step) :
    (steps.map (shift n)).map token = (steps.map token).map (Token.shift n) := by
  rw [List.map_map, List.map_map]
  exact List.map_congr_left fun s _ => s.token_shift n

theorem errors_shift (n : Nat) (steps : List Step) :
    (steps.map (shift n)).filterMap error? = (steps.filterMap error?).map (LexError.shift n) := by
  rw [List.filterMap_map, List.map_filterMap]
  exact List.filterMap_congr fun s _ => s.error?_shift n

end Step

namespace Cursor

def shift (n : Nat) (c : Cursor) : Cursor :=
  { c with offset := n + c.offset }

theorem step_shift (n : Nat) (c : Cursor) : (c.shift n).step = c.step.shift n := rfl

theorem next_shift (n : Nat) (c : Cursor) : (c.shift n).next = c.next.shift n := by
  have hoffset : (c.shift n).next.offset = n + c.next.offset := Nat.add_assoc _ _ _
  exact congrArg (fun offset => Cursor.mk c.next.mode offset c.next.rest) hoffset

theorem iterate_next_shift (n : Nat) (c : Cursor) (k : Nat) :
    next^[k] (c.shift n) = (next^[k] c).shift n := by
  induction k generalizing c with
  | zero => rfl
  | succ k ih => rw [Function.iterate_succ_apply, Function.iterate_succ_apply, next_shift, ih]

theorem take_shift (n : Nat) (c : Cursor) (k : Nat) :
    (c.shift n).take k = (c.take k).map (Step.shift n) := by
  induction k generalizing c with
  | zero => rfl
  | succ k ih => rw [take, take, List.map_cons, step_shift, next_shift, ih]

end Cursor

namespace Scanner

/-! ## Scanning the rest -/

/-- The scanner that has the rest of the content as its source. -/
def alone (s : Scanner) : Scanner :=
  starting s.mode ⟨s.source.name, s.rest⟩

theorem cursor_alone (s : Scanner) : s.alone.cursor.shift s.pos = s.cursor := rfl

theorem cursor_after_alone (k : Nat) (s : Scanner) :
    (s.after k).cursor = (s.alone.after k).cursor.shift s.pos := by
  rw [cursor_after, cursor_after, ← cursor_alone, Cursor.iterate_next_shift]

theorem take_alone (k : Nat) (s : Scanner) :
    s.take k = (s.alone.take k).map (Token.shift s.pos) := by
  rw [take_eq, take_eq, ← cursor_alone, Cursor.take_shift, Step.tokens_shift]

theorem errors_alone (k : Nat) (s : Scanner) : (s.after k).errors =
    s.errors ++ (s.alone.after k).errors.map (LexError.shift s.pos) := by
  have hnone : s.alone.errors = [] := rfl
  rw [errors_after, errors_after, hnone, List.nil_append, ← cursor_alone, Cursor.take_shift,
    Step.errors_shift]

/-- The errors that the next tokens add. -/
def found (k : Nat) (s : Scanner) : List LexError :=
  (s.after k).errors.drop s.errors.length

theorem map_fault_found (k : Nat) (s : Scanner) :
    (s.found k).map LexError.fault = (s.alone.after k).errors.map LexError.fault := by
  rw [found, errors_alone, List.drop_left, List.map_map]
  rfl

theorem map_toLexeme_take (k : Nat) (s : Scanner) :
    (s.take k).map Token.toLexeme = (s.alone.take k).map Token.toLexeme := by
  rw [take_alone, List.map_map]
  rfl

/-- Scanners with the same rest in the same mode read the same. -/
theorem reads_alike {s s' : Scanner} (hmode : s'.mode = s.mode) (hrest : s'.rest = s.rest)
    (k : Nat) :
    (s'.take k).map Token.toLexeme = (s.take k).map Token.toLexeme ∧
      (s'.found k).map LexError.fault = (s.found k).map LexError.fault := by
  have hcursor : s'.alone.cursor = s.alone.cursor := by
    change Cursor.mk s'.mode 0 s'.rest = Cursor.mk s.mode 0 s.rest
    rw [hmode, hrest]
  constructor
  · rw [s'.map_toLexeme_take k, s.map_toLexeme_take k, take_eq, take_eq, hcursor]
  · rw [s'.map_fault_found k, s.map_fault_found k, errors_after, errors_after, hcursor]
    rfl

/-! ## Tokens still to come -/

theorem length_take (n : Nat) (s : Scanner) : (s.take n).length = n := by
  induction n generalizing s with
  | zero => rfl
  | succ n ih => rw [take, List.length_cons, ih]

theorem take_add (n k : Nat) (s : Scanner) : s.take (n + k) = s.take n ++ (s.after n).take k := by
  induction n generalizing s with
  | zero => rw [Nat.zero_add]; rfl
  | succ n ih => rw [Nat.succ_add, take, take, after, ih, List.cons_append]

theorem after_add (n k : Nat) (s : Scanner) : s.after (n + k) = (s.after n).after k := by
  induction n generalizing s with
  | zero => rw [Nat.zero_add]; rfl
  | succ n ih => rw [Nat.succ_add, after, after, ih]

theorem take_begin (source : Source) :
    (begin source).take source.tokens.length = source.tokens := by
  have hsteps := source.take_length_tokens_add 0
  rw [List.replicate_zero, List.append_nil] at hsteps
  rw [take_eq]
  exact congrArg (List.map Step.token) hsteps

/-- The end of a source adds no errors, however often it is read. -/
theorem errors_after_begin (source : Source) (k : Nat) :
    ((begin source).after (source.tokens.length + k)).errors = source.errors := by
  have hsteps := congrArg (List.filterMap Step.error?) (source.take_length_tokens_add k)
  rw [errors_after]
  refine Eq.trans hsteps ?_
  rw [List.filterMap_append, List.filterMap_replicate_of_none (Cursor.error?_endStep _),
    List.append_nil]
  rfl

/-- After any number of tokens, the tokens and errors to come are those of the rest of the content
scanned alone, in the mode that has been reached, and their offsets are greater by where the rest
starts, also as they are reported. The same goes for the modes and positions to come. Contents with
the same rest in the same mode have the same tokens and errors to come. -/
theorem scanning_resumes (source : Source) (n : Nat) :
    let s := (begin source).after n
    let rest : Source := ⟨source.name, source.content.drop s.pos⟩
    let alone := starting s.mode rest
    (∀ k, s.take k = (alone.take k).map (Token.shift s.pos)) ∧
    (∀ k, (s.after k).errors = s.errors ++ (alone.after k).errors.map (LexError.shift s.pos)) ∧
    (∀ k, ((s.take k).map fun t => (t.span source.name source.lineStarts).start.offset) =
      (alone.take k).map fun t =>
        UInt32.ofNat s.pos + (t.span rest.name rest.lineStarts).start.offset) ∧
    (∀ k, (s.after k).mode = (alone.after k).mode ∧
      (s.after k).pos = s.pos + (alone.after k).pos) ∧
    (∀ k, (begin source).take (n + k) = (begin source).take n ++ s.take k) ∧
    source.tokens.drop n = s.take (source.tokens.length - n) ∧
    source.errors = (s.after (source.tokens.length - n)).errors ∧
    ∀ (source' : Source) (n' : Nat),
      let s' := (begin source').after n'
      s'.mode = s.mode → source'.content.drop s'.pos = rest.content → ∀ k,
        (s'.take k).map Token.toLexeme = (s.take k).map Token.toLexeme ∧
        (s'.found k).map LexError.fault = (s.found k).map LexError.fault := by
  intro s rest alone
  have hsource : s.source = source := source_after n (begin source)
  have hrest : s.rest = rest.content := congrArg (fun source => source.content.drop s.pos) hsource
  have halone : s.alone = alone := by
    rw [Scanner.alone, hrest, hsource]
  refine ⟨fun k => halone ▸ s.take_alone k, fun k => halone ▸ s.errors_alone k, fun k => ?_,
    fun k => ?_, fun k => take_add n k _, ?_, ?_, ?_⟩
  · rw [s.take_alone, halone, List.map_map]
    exact List.map_congr_left fun t _ => t.offset_span_shift s.pos _ _ _ _
  · have hcursor := s.cursor_after_alone k
    rw [halone] at hcursor
    exact ⟨congrArg Cursor.mode hcursor, congrArg Cursor.offset hcursor⟩
  · rcases Nat.le_total n source.tokens.length with hn | hn
    · have htake := take_add n (source.tokens.length - n) (begin source)
      rw [Nat.add_sub_cancel' hn, take_begin] at htake
      exact (congrArg (List.drop n) htake).trans (List.drop_left' (length_take n _))
    · rw [List.drop_eq_nil_of_le hn, Nat.sub_eq_zero_of_le hn]
      rfl
  · have hpast : n + (source.tokens.length - n) =
        source.tokens.length + (n - source.tokens.length) := by omega
    rw [← after_add, hpast, errors_after_begin]
  · intro source' n' s' hmode hrest' k
    have hsource' : s'.source = source' := source_after n' (begin source')
    refine reads_alike hmode ?_ k
    rw [hrest, ← hrest', Scanner.rest, hsource']

/-- A string without an end is scanned alike after another number of tokens in another content. -/
theorem scanning_resumes_open_string :
    let source := Source.mk (ascii "a.php") (ascii "<p><?php 1; 'x")
    let source' := Source.mk (ascii "b.php") (ascii "<?= 'x")
    let s := (begin source).after 4
    let s' := (begin source').after 1
    s.start < s.pos ∧ s'.mode = s.mode ∧ s.mode = .code ∧
      source'.content.drop s'.pos = source.content.drop s.pos ∧
      source.tokens.drop 4 = s.take 2 ∧
      (s'.take 2).map Token.toLexeme = (s.take 2).map Token.toLexeme ∧
      (s'.found 2).map LexError.fault = (s.found 2).map LexError.fault ∧
      (s.found 2).map LexError.fault = [.openString] := by
  intro source source' s s'
  obtain ⟨-, -, -, -, -, htokens, -, hother⟩ := scanning_resumes source 4
  have hlength : source.tokens.length - 4 = 2 := by decide +kernel
  have hmode : s'.mode = s.mode := by decide +kernel
  have hrest : source'.content.drop s'.pos = source.content.drop s.pos := by decide +kernel
  obtain ⟨hlexemes, hfaults⟩ := hother source' 1 hmode hrest 2
  rw [hlength] at htokens
  exact ⟨by decide +kernel, hmode, by decide +kernel, hrest, htokens, hlexemes, hfaults,
    by decide +kernel⟩

end Scanner

end TextDomain
