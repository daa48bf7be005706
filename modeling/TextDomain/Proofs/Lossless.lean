import Mathlib.Data.List.Basic
import TextDomain.Token.Stream

/-!
# Reading loses nothing

What `Mode.read` takes from a text, skipped pieces and token together (`Reading.text`), is how the
text begins. So the readings of `Cursor.steps`, joined, are the text they were read from
(`flatMap_text_steps`).

Every class of tokens is shown to read a prefix. `codeLexeme_cases` says once which classes
`codeLexeme` tries in which order; whatever holds of each class then holds of a token of code.
-/

namespace TextDomain

namespace Bytes

/-- A prefix can be continued by a prefix of what follows it. -/
theorem append_isPrefix {a b s : Bytes} (ha : a <+: s) (hb : b <+: s.drop a.length) :
    a ++ b <+: s := by
  obtain ⟨rest, rfl⟩ := ha
  rw [List.drop_left] at hb
  exact List.prefix_append_right_inj a |>.mpr hb

end Bytes

/-! ## What code skips -/

namespace Trivia

theorem lineBody_isPrefix : ∀ s : Bytes, lineBody s <+: s
  | [] => List.nil_prefix
  | c :: s => by
    rw [lineBody]
    split
    · exact List.nil_prefix
    · exact List.prefix_cons_inj c |>.mpr (lineBody_isPrefix s)

theorem blockBody?_isPrefix : ∀ {s body : Bytes}, blockBody? s = some body → body <+: s
  | [], _, h => by simp [blockBody?] at h
  | c :: s, body, h => by
    rw [blockBody?] at h
    split at h
    · rename_i hend
      obtain ⟨t, rfl⟩ := List.head?_eq_some_iff.mp hend.2
      obtain rfl := Option.some.inj h
      rw [hend.1]
      exact ⟨t, rfl⟩
    · obtain ⟨inner, hinner, rfl⟩ := Option.map_eq_some_iff.mp h
      exact List.prefix_cons_inj c |>.mpr (blockBody?_isPrefix hinner)

theorem text_isPrefix_of_slashComment? {s : Bytes} {t : Trivia} (h : slashComment? s = some t) :
    t.text <+: Byte.slash :: s := by
  unfold slashComment? at h
  split at h
  · simp at h
  · rename_i c s
    split at h
    · rename_i hc
      obtain rfl := Option.some.inj h
      simpa [text, hc] using lineBody_isPrefix s
    · split at h
      · rename_i hc
        split at h <;> obtain rfl := Option.some.inj h
        · rename_i body hbody
          simpa [text, hc] using blockBody?_isPrefix hbody
        · simp [text, hc]
      · simp at h

theorem text_isPrefix_of_first? {s : Bytes} {t : Trivia} (h : first? s = some t) :
    t.text <+: s := by
  unfold first? at h
  split at h
  · simp at h
  · rename_i c s
    split at h
    · obtain rfl := Option.some.inj h
      simp [text]
    · split at h
      · rename_i hc
        split at h
        · simp at h
        · obtain rfl := Option.some.inj h
          simpa [text, hc] using lineBody_isPrefix s
      · split at h
        · rename_i hc
          rw [hc]
          exact text_isPrefix_of_slashComment? h
        · simp at h

@[simp] theorem join_nil : join [] = [] := rfl

@[simp] theorem join_cons (piece : Trivia) (pieces : List Trivia) :
    join (piece :: pieces) = piece.text ++ join pieces := rfl

theorem run_of_none {s : Bytes} (h : first? s = none) : run s = [] := by
  rw [run]
  split
  · rfl
  · rename_i hs
    rw [h] at hs
    cases hs

theorem run_of_some {s : Bytes} {piece : Trivia} (h : first? s = some piece) :
    run s = piece :: run (s.drop piece.text.length) := by
  rw [run]
  split
  · rename_i hs
    rw [h] at hs
    cases hs
  · rename_i hs
    rw [h] at hs
    cases hs
    rfl

/-- The skipped pieces, joined, are how the text begins. -/
theorem join_run_isPrefix (s : Bytes) : join (run s) <+: s := by
  induction s using run.induct with
  | case1 s h => simp [run_of_none h]
  | case2 s piece h _ ih =>
    rw [run_of_some h, join_cons]
    exact Bytes.append_isPrefix (text_isPrefix_of_first? h) ih

end Trivia

/-! ## Tags and markup -/

namespace Markup

theorem openTag?_isPrefix {s tag : Bytes} (h : openTag? s = some tag) : tag <+: s := by
  unfold openTag? at h
  split at h
  · obtain rfl := Option.some.inj h
    exact List.take_prefix 3 s
  · split at h
    · obtain rfl := Option.some.inj h
      exact List.take_prefix 5 s
    · simp at h

theorem html_isPrefix : ∀ s : Bytes, html s <+: s
  | [] => List.nil_prefix
  | c :: s => by
    rw [html]
    split
    · exact List.nil_prefix
    · exact List.prefix_cons_inj c |>.mpr (html_isPrefix s)

theorem lineEnd_isPrefix (s : Bytes) : lineEnd s <+: s := by
  unfold lineEnd
  split
  · rename_i h
    obtain ⟨t, rfl⟩ := List.head?_eq_some_iff.mp h
    exact ⟨t, rfl⟩
  · split
    · rename_i h
      exact List.isPrefixOf_iff_prefix.mp h
    · exact List.nil_prefix

theorem closeTag?_isPrefix {s tag : Bytes} (h : closeTag? s = some tag) : tag <+: s := by
  obtain ⟨rest, hrest, rfl⟩ := Option.map_eq_some_iff.mp h
  rw [Bytes.eq_of_after? hrest]
  exact List.prefix_append_right_inj _ |>.mpr (lineEnd_isPrefix rest)

end Markup

/-! ## Names and numbers -/

namespace Name

theorem variableName?_isPrefix {s name : Bytes} (h : variableName? s = some name) : name <+: s := by
  unfold variableName? at h
  split at h
  · simp at h
  · split at h
    · rename_i hc
      obtain rfl := Option.some.inj h
      rw [hc.1, List.prefix_cons_inj]
      exact List.takeWhile_prefix _
    · simp at h

theorem qualified_isPrefix : ∀ s : Bytes, qualified s <+: s
  | [] => List.nil_prefix
  | c :: s => by
    rw [qualified]
    split
    · exact List.prefix_cons_inj c |>.mpr (qualified_isPrefix s)
    · exact List.nil_prefix

theorem identifier?_isPrefix {s name : Bytes} (h : identifier? s = some name) : name <+: s := by
  unfold identifier? at h
  split at h
  · simp at h
  · split at h
    · obtain rfl := Option.some.inj h
      exact qualified_isPrefix _
    · simp at h

end Name

namespace Number

theorem fraction_isPrefix (s : Bytes) : fraction s <+: s := by
  unfold fraction
  split
  · exact List.nil_prefix
  · split
    · rename_i hc
      rw [hc]
      split
      · exact List.prefix_cons_inj _ |>.mpr (List.takeWhile_prefix _)
      · exact List.prefix_cons_inj _ |>.mpr List.nil_prefix
    · exact List.nil_prefix

theorem sign_isPrefix (s : Bytes) : sign s <+: s := by
  unfold sign
  split
  · exact List.nil_prefix
  · split
    · exact List.prefix_cons_inj _ |>.mpr List.nil_prefix
    · exact List.nil_prefix

theorem exponent_isPrefix (s : Bytes) : exponent s <+: s := by
  unfold exponent
  split
  · exact List.nil_prefix
  · split
    · dsimp only
      split
      · exact List.nil_prefix
      · exact List.prefix_cons_inj _ |>.mpr
          (Bytes.append_isPrefix (sign_isPrefix _) (List.takeWhile_prefix _))
    · exact List.nil_prefix

theorem decimalNumber_isPrefix (s : Bytes) : decimalNumber s <+: s :=
  Bytes.append_isPrefix (Bytes.append_isPrefix (List.takeWhile_prefix _) (fraction_isPrefix _))
    (exponent_isPrefix _)

theorem number?_isPrefix {s number : Bytes} (h : number? s = some number) : number <+: s := by
  unfold number? at h
  split at h
  · simp at h
  · rename_i hs
    split at h
    · rename_i hbase
      obtain rfl := Option.some.inj h
      refine Bytes.append_isPrefix (List.take_prefix 2 s) ?_
      have hlen : 2 ≤ s.length := by
        match s, hbase with
        | [], h => simp at h
        | [_], h => simp at h
        | _ :: _ :: _, _ => simp
      rw [List.length_take_of_le hlen]
      exact List.takeWhile_prefix _
    · obtain rfl := Option.some.inj h
      exact decimalNumber_isPrefix s

end Number

/-! ## Strings, heredocs and symbols -/

namespace Quoted

theorem body?_isPrefix (quote : UInt8) :
    ∀ {s body : Bytes}, body? quote s = some body → body <+: s
  | [], _, h => by simp [body?] at h
  | [c], body, h => by
    rw [body?] at h
    split at h
    · simp at h
    · split at h
      · obtain rfl := Option.some.inj h
        exact List.prefix_rfl
      · simp [body?] at h
  | c :: d :: s, body, h => by
    rw [body?] at h
    split at h
    · obtain ⟨inner, hinner, rfl⟩ := Option.map_eq_some_iff.mp h
      simpa using body?_isPrefix quote hinner
    · split at h
      · obtain rfl := Option.some.inj h
        exact List.prefix_cons_inj c |>.mpr List.nil_prefix
      · obtain ⟨inner, hinner, rfl⟩ := Option.map_eq_some_iff.mp h
        exact List.prefix_cons_inj c |>.mpr (body?_isPrefix quote hinner)

/-- A string has an end, or it takes all of the text. -/
theorem cases_of_quoted? {s : Bytes} {l : Lexeme} (h : quoted? s = some l) :
    ∃ quote rest, s = quote :: rest ∧ isQuote quote = true ∧ (l = ⟨.error, s⟩ ∨
      ∃ body, body? quote rest = some body ∧ l = ⟨kind quote body, quote :: body⟩) := by
  unfold quoted? at h
  split at h
  · cases h
  · rename_i c s
    split at h
    · rename_i hquote
      refine ⟨c, s, rfl, hquote, ?_⟩
      split at h <;> obtain rfl := Option.some.inj h
      · rename_i body hbody
        exact Or.inr ⟨body, hbody, rfl⟩
      · exact Or.inl rfl
    · cases h

theorem text_isPrefix {s : Bytes} {l : Lexeme} (h : quoted? s = some l) : l.text <+: s := by
  obtain ⟨quote, rest, rfl, -, rfl | ⟨body, hbody, rfl⟩⟩ := cases_of_quoted? h
  · exact List.prefix_rfl
  · exact List.prefix_cons_inj quote |>.mpr (body?_isPrefix quote hbody)

theorem kind_mem {s : Bytes} {l : Lexeme} (h : quoted? s = some l) :
    l.kind ∈ [.string, .interpolatedString, .error] := by
  obtain ⟨quote, rest, -, -, rfl | ⟨body, -, rfl⟩⟩ := cases_of_quoted? h
  · simp
  · dsimp only
    unfold kind
    split <;> decide

end Quoted

namespace Heredoc

theorem label?_isPrefix {s written label : Bytes} (h : label? s = some (written, label)) :
    written <+: s := by
  unfold label? at h
  dsimp only at h
  split at h
  · rename_i hlabel
    obtain ⟨rfl, -⟩ := Prod.mk.inj (Option.some.inj h)
    have hquote : labelQuote s <+: s := by
      unfold labelQuote
      split
      · exact List.nil_prefix
      · split
        · exact List.prefix_cons_inj _ |>.mpr List.nil_prefix
        · exact List.nil_prefix
    refine Bytes.append_isPrefix (Bytes.append_isPrefix hquote (List.takeWhile_prefix _)) ?_
    rw [List.length_append, ← List.drop_drop]
    exact List.isPrefixOf_iff_prefix.mp hlabel.2
  · simp at h

theorem carriageReturn_isPrefix (s : Bytes) : carriageReturn s <+: s := by
  unfold carriageReturn
  split
  · rename_i h
    obtain ⟨t, rfl⟩ := List.head?_eq_some_iff.mp h
    exact ⟨t, rfl⟩
  · exact List.nil_prefix

theorem header?_isPrefix {s : Bytes} {header : Header} (h : header? s = some header) :
    header.text <+: s := by
  simp only [header?, Option.bind_eq_bind, Option.bind_eq_some_iff] at h
  obtain ⟨rest, hrest, ⟨written, label⟩, hlabel, h⟩ := h
  split at h
  · obtain rfl := Option.some.inj h
    rw [Bytes.eq_of_after? hrest, List.append_assoc, List.append_assoc,
      List.prefix_append_right_inj]
    refine Bytes.append_isPrefix (List.takeWhile_prefix _) ?_
    exact Bytes.append_isPrefix (label?_isPrefix hlabel) (carriageReturn_isPrefix _)
  · simp at h

theorem marker?_isPrefix {label line marker : Bytes} (h : marker? label line = some marker) :
    marker <+: line := by
  unfold marker? at h
  dsimp only at h
  split at h
  · rename_i rest hrest
    split at h
    · simp at h
    · obtain rfl := Option.some.inj h
      refine Bytes.append_isPrefix (List.takeWhile_prefix _) ?_
      rw [Bytes.eq_of_after? hrest]
      exact List.prefix_append label rest
  · simp at h

theorem closing?_isPrefix (label : Bytes) :
    ∀ {fresh : Bool} {s body : Bytes}, closing? label fresh s = some body → body <+: s
  | fresh, [], body, h => by
    rw [closing?] at h
    split at h
    · exact marker?_isPrefix h
    · simp at h
  | fresh, c :: s, body, h => by
    rw [closing?] at h
    split at h
    · rename_i marker hmarker
      obtain rfl := Option.some.inj h
      split at hmarker
      · exact marker?_isPrefix hmarker
      · simp at hmarker
    · obtain ⟨inner, hinner, rfl⟩ := Option.map_eq_some_iff.mp h
      exact List.prefix_cons_inj c |>.mpr (closing?_isPrefix label hinner)

/-- A heredoc has an end, or it takes all of the text. -/
theorem cases_of_heredoc? {s : Bytes} {l : Lexeme} (h : heredoc? s = some l) :
    ∃ header, header? s = some header ∧ (l = ⟨.error, s⟩ ∨
      ∃ body, closing? header.label false (s.drop header.text.length) = some body ∧
        l = ⟨.heredoc, header.text ++ body⟩) := by
  obtain ⟨header, hheader, hl⟩ := Option.map_eq_some_iff.mp h
  refine ⟨header, hheader, ?_⟩
  split at hl <;> subst hl
  · rename_i body hbody
    exact Or.inr ⟨body, hbody, rfl⟩
  · exact Or.inl rfl

theorem text_isPrefix {s : Bytes} {l : Lexeme} (h : heredoc? s = some l) : l.text <+: s := by
  obtain ⟨header, hheader, rfl | ⟨body, hbody, rfl⟩⟩ := cases_of_heredoc? h
  · exact List.prefix_rfl
  · exact Bytes.append_isPrefix (header?_isPrefix hheader) (closing?_isPrefix _ hbody)

theorem kind_mem {s : Bytes} {l : Lexeme} (h : heredoc? s = some l) :
    l.kind ∈ [.heredoc, .error] := by
  obtain ⟨header, -, rfl | ⟨body, -, rfl⟩⟩ := cases_of_heredoc? h <;> simp

end Heredoc

theorem Symbol.text_isPrefix (c : UInt8) (s : Bytes) : (symbol c s).text <+: c :: s := by
  have hone : [c] <+: c :: s := List.prefix_cons_inj c |>.mpr List.nil_prefix
  unfold symbol
  split
  · exact hone
  · split
    · exact hone
    · split
      · exact hone
      · cases h : operators.find? (·.isPrefixOf (c :: s)) with
        | none => exact hone
        | some text =>
          have hprefix : text.isPrefixOf (c :: s) = true := by simpa using List.find?_some h
          exact List.isPrefixOf_iff_prefix.mp hprefix

/-! ## One reading -/

theorem Symbol.kind_mem (c : UInt8) (s : Bytes) :
    (symbol c s).kind ∈ [.openParen, .closeParen, .comma, .operator] := by
  unfold symbol
  split
  · simp
  · split
    · simp
    · split <;> simp

/-- A token of code is of the first class that fits. A symbol is what no other class takes. -/
theorem codeLexeme_cases {c : UInt8} {s : Bytes} {motive : Lexeme → Prop}
    (closeTag : ∀ tag, Markup.closeTag? (c :: s) = some tag → motive ⟨.closeTag, tag⟩)
    (var : ∀ name, Name.variableName? (c :: s) = some name → motive ⟨.var, name⟩)
    (identifier : ∀ name, Name.identifier? (c :: s) = some name → motive ⟨.identifier, name⟩)
    (number : ∀ text, Number.number? (c :: s) = some text → motive ⟨.number, text⟩)
    (quoted : ∀ l, Quoted.quoted? (c :: s) = some l → motive l)
    (heredoc : ∀ l, Heredoc.heredoc? (c :: s) = some l → motive l)
    (symbol : Name.variableName? (c :: s) = none → Name.identifier? (c :: s) = none →
      Number.number? (c :: s) = none → motive (Symbol.symbol c s)) :
    motive (codeLexeme (c :: s)) := by
  simp only [codeLexeme]
  cases htag : Markup.closeTag? (c :: s) with
  | some tag => exact closeTag tag htag
  | none =>
  cases hvar : Name.variableName? (c :: s) with
  | some name => exact var name hvar
  | none =>
  cases hname : Name.identifier? (c :: s) with
  | some name => exact identifier name hname
  | none =>
  cases hnumber : Number.number? (c :: s) with
  | some text => exact number text hnumber
  | none =>
  cases hquoted : Quoted.quoted? (c :: s) with
  | some l => exact quoted l hquoted
  | none =>
  cases hheredoc : Heredoc.heredoc? (c :: s) with
  | some l => exact heredoc l hheredoc
  | none => exact symbol hvar hname hnumber

theorem text_isPrefix_of_codeLexeme (s : Bytes) : (codeLexeme s).text <+: s := by
  cases s with
  | nil => exact List.nil_prefix
  | cons c s =>
    exact codeLexeme_cases (fun _ => Markup.closeTag?_isPrefix)
      (fun _ => Name.variableName?_isPrefix) (fun _ => Name.identifier?_isPrefix)
      (fun _ => Number.number?_isPrefix)
      (fun _ => Quoted.text_isPrefix) (fun _ => Heredoc.text_isPrefix)
      (fun _ _ _ => Symbol.text_isPrefix c s)

theorem text_isPrefix_of_markupLexeme (s : Bytes) : (markupLexeme s).text <+: s := by
  unfold markupLexeme
  split
  · exact List.nil_prefix
  · split
    · rename_i tag htag
      exact Markup.openTag?_isPrefix htag
    · exact Markup.html_isPrefix _

/-- A token of code by its kind: the first four classes have a kind each, and share none with the
others. -/
theorem codeLexeme_kind_cases {c : UInt8} {s : Bytes} {motive : Lexeme → Prop}
    (closeTag : ∀ tag, Markup.closeTag? (c :: s) = some tag → motive ⟨.closeTag, tag⟩)
    (var : ∀ name, Name.variableName? (c :: s) = some name → motive ⟨.var, name⟩)
    (identifier : ∀ name, Name.identifier? (c :: s) = some name → motive ⟨.identifier, name⟩)
    (number : ∀ text, Number.number? (c :: s) = some text → motive ⟨.number, text⟩)
    (other : ∀ l : Lexeme, l.kind ∈ [.string, .interpolatedString, .heredoc, .error, .openParen,
      .closeParen, .comma, .operator] → motive l) : motive (codeLexeme (c :: s)) := by
  refine codeLexeme_cases closeTag var identifier number (fun l h => other l ?_)
    (fun l h => other l ?_) fun _ _ _ => other _ ?_
  · exact (by decide : [Kind.string, .interpolatedString, .error] ⊆ _) (Quoted.kind_mem h)
  · exact (by decide : [Kind.heredoc, .error] ⊆ _) (Heredoc.kind_mem h)
  · exact (by decide : [Kind.openParen, .closeParen, .comma, .operator] ⊆ _) (Symbol.kind_mem c s)

/-- What a token of code may be, the end aside. -/
theorem kind_codeLexeme_mem (c : UInt8) (s : Bytes) : (codeLexeme (c :: s)).kind ∈
    [.closeTag, .var, .identifier, .number, .string, .interpolatedString, .heredoc, .error,
      .openParen, .closeParen, .comma, .operator] :=
  codeLexeme_kind_cases (motive := fun l => l.kind ∈ _) (by simp) (by simp) (by simp) (by simp)
    fun _ h => List.mem_append_right [Kind.closeTag, .var, .identifier, .number] h

/-- Only the end of the text is read as the end. -/
theorem kind_codeLexeme_ne_eof (c : UInt8) (s : Bytes) : (codeLexeme (c :: s)).kind ≠ .eof :=
  ne_of_mem_of_not_mem (kind_codeLexeme_mem c s) (by decide)

/-- What a token of markup may be, the end aside. -/
theorem kind_markupLexeme_mem (c : UInt8) (s : Bytes) :
    (markupLexeme (c :: s)).kind ∈ [.inlineHtml, .openTag] := by
  simp only [markupLexeme]
  split <;> simp

theorem kind_markupLexeme_ne_eof (c : UInt8) (s : Bytes) :
    (markupLexeme (c :: s)).kind ≠ .eof :=
  ne_of_mem_of_not_mem (kind_markupLexeme_mem c s) (by decide)

/-- Everything read, what is skipped included. -/
def Reading.text (r : Reading) : Bytes :=
  Trivia.join r.gap ++ r.lexeme.text

@[simp] theorem Reading.length_text (r : Reading) : r.text.length = r.size := by
  simp [text, size, gapSize]

theorem text_read_isPrefix (mode : Mode) (s : Bytes) : (mode.read s).text <+: s := by
  cases mode with
  | markup => exact text_isPrefix_of_markupLexeme s
  | code => exact Bytes.append_isPrefix (Trivia.join_run_isPrefix s) (text_isPrefix_of_codeLexeme _)

/-- What is read and what is left make up the text. -/
theorem text_read_append (mode : Mode) (s : Bytes) :
    (mode.read s).text ++ s.drop (mode.read s).size = s := by
  obtain ⟨rest, hrest⟩ := text_read_isPrefix mode s
  have hdrop : s.drop (mode.read s).size = rest := by
    rw [← Reading.length_text]
    nth_rewrite 2 [← hrest]
    exact List.drop_left
  rw [hdrop, hrest]

/-- Before the end nothing is left but what is skipped. -/
theorem drop_gapSize_of_eof {mode : Mode} {s : Bytes} (h : (mode.read s).lexeme.kind = .eof) :
    s.drop (mode.read s).gapSize = [] := by
  cases mode with
  | markup =>
    cases s with
    | nil => rfl
    | cons c s => exact absurd h (kind_markupLexeme_ne_eof c s)
  | code =>
    change (codeLexeme (s.drop (Mode.code.read s).gapSize)).kind = .eof at h
    cases hrest : s.drop (Mode.code.read s).gapSize with
    | nil => rfl
    | cons c t =>
      rw [hrest] at h
      exact absurd h (kind_codeLexeme_ne_eof c t)

/-- At the end nothing is left. -/
theorem drop_size_of_eof {mode : Mode} {s : Bytes} (h : (mode.read s).lexeme.kind = .eof) :
    s.drop (mode.read s).size = [] := by
  rw [Reading.size, ← List.drop_drop, drop_gapSize_of_eof h, List.drop_nil]

/-! ## All readings -/

namespace Cursor

theorem steps_of_eof {c : Cursor} (h : c.step.lexeme.kind = .eof) : c.steps = [c.step] := by
  rw [steps]
  exact dif_pos h

theorem steps_of_ne {c : Cursor} (h : c.step.lexeme.kind ≠ .eof) :
    c.steps = c.step :: c.next.steps := by
  rw [steps]
  exact dif_neg h

/-- Induction along a reading: from the next cursor, and from the end. -/
theorem next_induction {motive : Cursor → Prop}
    (last : ∀ c : Cursor, c.step.lexeme.kind = .eof → motive c)
    (more : ∀ c : Cursor, c.step.lexeme.kind ≠ .eof → motive c.next → motive c) (c : Cursor) :
    motive c := by
  induction c using steps.induct with
  | case1 c _ h => exact last c h
  | case2 c _ h _ ih => exact more c h ih

/-- What is before a cursor: the skipped pieces, the token and the rest. -/
theorem gap_append_text_append_next (c : Cursor) :
    Trivia.join c.step.reading.gap ++ (c.step.lexeme.text ++ c.next.rest) = c.rest := by
  have h := text_read_append c.mode c.rest
  rwa [Reading.text, List.append_assoc] at h

theorem rest_next_of_eof {c : Cursor} (h : c.step.lexeme.kind = .eof) : c.next.rest = [] :=
  drop_size_of_eof h

/-- The readings of a text, joined, are the text. -/
theorem flatMap_text_steps (c : Cursor) : (c.steps.flatMap fun s => s.reading.text) = c.rest := by
  induction c using next_induction with
  | last c h =>
    have happend := text_read_append c.mode c.rest
    rw [drop_size_of_eof h, List.append_nil] at happend
    rw [steps_of_eof h, List.flatMap_singleton]
    exact happend
  | more c h ih =>
    rw [steps_of_ne h, List.flatMap_cons, ih]
    exact text_read_append c.mode c.rest

theorem offset_le_of_mem_steps {c : Cursor} {s : Step} (h : s ∈ c.steps) : c.offset ≤ s.offset := by
  induction c using next_induction with
  | last c heof =>
    rw [steps_of_eof heof, List.mem_singleton] at h
    rw [h]
    exact Nat.le_refl _
  | more c heof ih =>
    rw [steps_of_ne heof, List.mem_cons] at h
    rcases h with rfl | h
    · exact Nat.le_refl _
    · exact Nat.le_trans (Nat.le_add_right _ _) (ih h)

/-! ## Cursors in a content -/

variable {content : Bytes} {c : Cursor}

theorem drop_offset_next (hc : content.drop c.offset = c.rest) :
    content.drop c.next.offset = c.next.rest := by
  rw [← show (content.drop c.offset).drop c.step.reading.size = c.next.rest by rw [hc]; rfl,
    List.drop_drop]
  rfl

theorem take_start (hc : content.drop c.offset = c.rest) :
    content.take c.step.start = content.take c.offset ++ Trivia.join c.step.reading.gap := by
  have htake : c.rest.take c.step.reading.gapSize = Trivia.join c.step.reading.gap := by
    rw [← c.gap_append_text_append_next]
    exact List.take_left
  rw [← htake, ← hc]
  exact List.take_add

theorem take_offset_next (hc : content.drop c.offset = c.rest) :
    content.take c.next.offset = content.take c.offset ++ c.step.reading.text := by
  have htake : c.rest.take c.step.reading.size = c.step.reading.text := by
    rw [← text_read_append c.mode c.rest, ← Reading.length_text]
    exact List.take_left
  rw [← htake, ← hc]
  exact List.take_add

end Cursor

end TextDomain
