import Mathlib.Data.List.Find
import Mathlib.Data.List.TakeWhile
import TextDomain.Call
import TextDomain.Proofs.Lossless

/-!
# A quote ends all lookahead

The reader looks ahead of the token it reads, but never past a quote that it does not take: no name,
number, operator, tag or comment mark holds one. So two texts that agree up to a quote in each are
read alike, as long as what is read ends before the quotes (`Mode.read_append`). There is one
exception. After `<<<` a quote may be part of a heredoc's header, and then which quote it is and
what follows it matters (`Heredoc.AwaitsQuote`).

Classes of tokens that cannot hold a quote read the same with the quote and all after it taken away.
Comments, strings, heredocs and markup may hold quotes; for them the length of what is read decides.
-/

namespace TextDomain

/-- A text that begins with a quote. -/
def QuoteLed (q : Bytes) : Prop :=
  ∃ c u, q = c :: u ∧ (c = Byte.singleQuote ∨ c = Byte.doubleQuote)

/-- A class of bytes without quotes. -/
def Quoteless (cls : UInt8 → Bool) : Prop :=
  cls Byte.singleQuote = false ∧ cls Byte.doubleQuote = false

instance (cls : UInt8 → Bool) : Decidable (Quoteless cls) :=
  inferInstanceAs (Decidable (_ ∧ _))

theorem Quoteless.eq_false {cls : UInt8 → Bool} {d : UInt8} (hcls : Quoteless cls)
    (hd : d = Byte.singleQuote ∨ d = Byte.doubleQuote) : cls d = false := by
  rcases hd with rfl | rfl
  · exact hcls.1
  · exact hcls.2

theorem Bytes.drop_takeWhile_append (cls : UInt8 → Bool) (p q : Bytes) :
    (p ++ q).drop (p.takeWhile cls).length = p.drop (p.takeWhile cls).length ++ q :=
  List.drop_append_of_le_length (List.takeWhile_prefix cls).length_le

/-- No byte of the text is a quote. -/
def Bytes.quoteFree (s : Bytes) : Bool :=
  s.all fun c => !isStringQuote c

namespace QuoteLed

variable {p q : Bytes} {cls : UInt8 → Bool}

theorem startsIn (hq : QuoteLed q) (hcls : Quoteless cls) : Bytes.startsIn cls q = false := by
  obtain ⟨c, u, rfl, hc⟩ := hq
  exact hcls.eq_false hc

theorem startsIn_append (hq : QuoteLed q) (hcls : Quoteless cls) (p : Bytes) :
    Bytes.startsIn cls (p ++ q) = Bytes.startsIn cls p := by
  cases p with
  | nil => exact hq.startsIn hcls
  | cons d p => rfl

theorem takeWhile_append (hq : QuoteLed q) (hcls : Quoteless cls) :
    ∀ p : Bytes, (p ++ q).takeWhile cls = p.takeWhile cls
  | [] => by
    obtain ⟨c, u, rfl, hc⟩ := hq
    simp [hcls.eq_false hc]
  | d :: p => by
    rw [List.cons_append, List.takeWhile_cons, List.takeWhile_cons, takeWhile_append hq hcls p]

/-- A text without quotes begins a text or not before the first quote is reached. -/
theorem isPrefixOf_append (hq : QuoteLed q) : ∀ {lead : Bytes}, lead.quoteFree = true →
    ∀ p : Bytes, lead.isPrefixOf (p ++ q) = lead.isPrefixOf p
  | [], _, p => by simp
  | b :: lead, hlead, [] => by
    simp only [Bytes.quoteFree, List.all_cons, Bool.and_eq_true, isStringQuote] at hlead
    obtain ⟨c, u, rfl, rfl | rfl⟩ := hq <;>
      rw [List.nil_append, List.isPrefixOf_cons_cons] <;> simp_all
  | b :: lead, hlead, d :: p => by
    simp only [Bytes.quoteFree, List.all_cons, Bool.and_eq_true] at hlead
    rw [List.cons_append, List.isPrefixOf_cons_cons, List.isPrefixOf_cons_cons,
      isPrefixOf_append hq hlead.2 p]

theorem head?_append (hq : QuoteLed q) {b : UInt8} (hb : isStringQuote b = false) (p : Bytes) :
    (p ++ q).head? = some b ↔ p.head? = some b := by
  cases p with
  | nil =>
    obtain ⟨c, u, rfl, rfl | rfl⟩ := hq <;> simp <;> rintro rfl <;> simp [isStringQuote] at hb
  | cons d p => rfl

theorem head?_append_congr {q' : Bytes} (hq : QuoteLed q) (hq' : QuoteLed q') {b : UInt8}
    (hb : isStringQuote b = false) (p : Bytes) :
    (p ++ q').head? = some b ↔ (p ++ q).head? = some b :=
  (hq'.head?_append hb p).trans (hq.head?_append hb p).symm

theorem after?_append (hq : QuoteLed q) {lead : Bytes} (hlead : lead.quoteFree = true) (p : Bytes) :
    Bytes.after? lead (p ++ q) = (Bytes.after? lead p).map (· ++ q) := by
  unfold Bytes.after?
  rw [hq.isPrefixOf_append hlead p]
  split
  · rename_i h
    have hle := (List.isPrefixOf_iff_prefix.mp h).length_le
    simp [List.drop_append_of_le_length hle]
  · rfl

end QuoteLed

/-! ## Classes that hold no quote -/

section Short

variable {p q : Bytes} (hq : QuoteLed q)
include hq

theorem Markup.lineEnd_append (p : Bytes) : lineEnd (p ++ q) = lineEnd p := by
  unfold lineEnd
  simp only [hq.head?_append (by decide : isStringQuote Byte.lf = false),
    hq.isPrefixOf_append (by decide : Bytes.quoteFree [Byte.cr, Byte.lf] = true)]

theorem Markup.closeTag?_append (p : Bytes) : closeTag? (p ++ q) = closeTag? p := by
  unfold closeTag?
  rw [hq.after?_append (by decide) p, Option.map_map]
  simp only [Function.comp_def, lineEnd_append hq]

theorem Name.variableName?_append (p : Bytes) : variableName? (p ++ q) = variableName? p := by
  cases p with
  | nil => obtain ⟨c, u, rfl, rfl | rfl⟩ := hq <;> rfl
  | cons d p =>
    simp only [List.cons_append, variableName?, hq.startsIn_append
      (by decide : Quoteless Byte.isNameStart),
      hq.takeWhile_append (by decide : Quoteless Byte.isNameByte)]

theorem Name.qualified_append : ∀ p : Bytes, qualified (p ++ q) = qualified p
  | [] => by obtain ⟨c, u, rfl, rfl | rfl⟩ := hq <;> rfl
  | d :: p => by
    simp only [List.cons_append, qualified, hq.startsIn_append
      (by decide : Quoteless Byte.isNameStart), qualified_append p]

theorem Name.identifier?_append (p : Bytes) : identifier? (p ++ q) = identifier? p := by
  cases p with
  | nil => obtain ⟨c, u, rfl, rfl | rfl⟩ := hq <;> rfl
  | cons d p =>
    have hqualified := qualified_append hq (d :: p)
    rw [List.cons_append] at hqualified ⊢
    simp only [identifier?, hqualified, hq.startsIn_append (by decide : Quoteless Byte.isNameStart)]

theorem Number.startsNumber_append (p : Bytes) : startsNumber (p ++ q) = startsNumber p := by
  cases p with
  | nil => obtain ⟨c, u, rfl, rfl | rfl⟩ := hq <;> rfl
  | cons d p =>
    simp only [List.cons_append, startsNumber,
      hq.startsIn_append (by decide : Quoteless Byte.isDigit)]

theorem Number.digits_append (p : Bytes) : digits (p ++ q) = digits p :=
  hq.takeWhile_append (by decide) p

theorem Number.fraction_append (p : Bytes) : fraction (p ++ q) = fraction p := by
  cases p with
  | nil => obtain ⟨c, u, rfl, rfl | rfl⟩ := hq <;> rfl
  | cons d p =>
    simp only [List.cons_append, fraction, digits_append hq,
      hq.startsIn_append (by decide : Quoteless Byte.isDigit)]

theorem Number.sign_append (p : Bytes) : sign (p ++ q) = sign p := by
  cases p with
  | nil => obtain ⟨c, u, rfl, rfl | rfl⟩ := hq <;> rfl
  | cons d p =>
    simp only [List.cons_append, sign, hq.startsIn_append (by decide : Quoteless Byte.isDigit)]

theorem Number.exponent_append (p : Bytes) : exponent (p ++ q) = exponent p := by
  cases p with
  | nil => obtain ⟨c, u, rfl, rfl | rfl⟩ := hq <;> rfl
  | cons d p =>
    simp only [List.cons_append, exponent, sign_append hq,
      List.drop_append_of_le_length (sign_isPrefix p).length_le,
      hq.takeWhile_append (by decide : Quoteless Byte.isDigit)]

theorem Number.decimalNumber_append (p : Bytes) : decimalNumber (p ++ q) = decimalNumber p := by
  have hwhole : digits p <+: p := List.takeWhile_prefix _
  have hbody : digits p ++ fraction (p.drop (digits p).length) <+: p :=
    Bytes.append_isPrefix hwhole (fraction_isPrefix _)
  simp only [decimalNumber, digits_append hq, List.drop_append_of_le_length hwhole.length_le,
    fraction_append hq, List.drop_append_of_le_length hbody.length_le, exponent_append hq]

theorem Number.number?_append (p : Bytes) : number? (p ++ q) = number? p := by
  unfold number?
  simp only [startsNumber_append hq, decimalNumber_append hq,
    hq.head?_append (by decide : isStringQuote Byte.zero = false)]
  match p with
  | [] => rfl
  | [d] =>
    have hmark : Bytes.startsIn isBaseMark q = false := hq.startsIn (by decide)
    simp [hmark]
  | d :: e :: p =>
    simp only [List.cons_append, List.drop_succ_cons, List.drop_zero, List.take_succ_cons,
      List.take_zero, hq.takeWhile_append (by decide : Quoteless Byte.isNameByte),
      Bytes.startsIn_cons]

theorem Symbol.symbol_append (c : UInt8) (p : Bytes) : symbol c (p ++ q) = symbol c p := by
  have hfind : operators.find? (·.isPrefixOf (c :: (p ++ q))) =
      operators.find? (·.isPrefixOf (c :: p)) := by
    refine List.find?_congr fun op hop => ?_
    have hfree : ∀ op ∈ operators, op.quoteFree = true := by decide
    exact hq.isPrefixOf_append (hfree op hop) (c :: p)
  simp only [symbol, hfind]

end Short

theorem Quoted.body?_ne_some_nil (quote : UInt8) (s : Bytes) : body? quote s ≠ some [] := by
  unfold body?
  split
  · simp
  · split
    · split <;> simp
    · split <;> simp

/-! ## Open tags -/

namespace Markup

/-- The long tag and what must follow it hold no quote. -/
theorem longTag_before_quote {q : Bytes} (hq : QuoteLed q) (p : Bytes) :
    (((p ++ q).take 5).map Byte.lower = ascii "<?php" ∧ endsTag ((p ++ q).drop 5) = true) ↔
      5 < p.length ∧ (p.take 5).map Byte.lower = ascii "<?php" ∧ endsTag (p.drop 5) = true := by
  rcases Nat.lt_trichotomy p.length 5 with hlt | heq | hgt
  · refine iff_of_false (fun h => ?_) (fun h => by omega)
    obtain ⟨c, u, rfl, hc⟩ := hq
    have hmem : Byte.lower c ∈ ascii "<?php" := by
      rw [← h.1]
      refine List.mem_map_of_mem ?_
      rw [List.mem_take_iff_getElem]
      exact ⟨p.length, by simp; omega, by simp⟩
    rcases hc with rfl | rfl <;> revert hmem <;> decide
  · refine iff_of_false (fun h => ?_) (fun h => by omega)
    obtain ⟨c, u, rfl, hc⟩ := hq
    have hend := h.2
    rw [← heq, List.drop_left] at hend
    rcases hc with rfl | rfl <;> revert hend <;> simp +decide [endsTag]
  · rw [List.take_append_of_le_length (by omega), List.drop_append_of_le_length (by omega)]
    obtain ⟨d, y, hy⟩ := List.exists_cons_of_length_pos (l := p.drop 5) (by simp; omega)
    simp [hy, endsTag, hgt]

/-- A quote is no part of an open tag, nor may it follow the long one directly. -/
theorem openTag?_before_quote {q : Bytes} (hq : QuoteLed q) (p : Bytes) : openTag? (p ++ q) =
    if (ascii "<?=").isPrefixOf p then some (p.take 3)
    else if 5 < p.length ∧ (p.take 5).map Byte.lower = ascii "<?php" ∧ endsTag (p.drop 5) then
      some (p.take 5)
    else none := by
  have hshort : (ascii "<?=").isPrefixOf (p ++ q) = (ascii "<?=").isPrefixOf p :=
    hq.isPrefixOf_append (by decide) p
  simp only [openTag?, hshort, longTag_before_quote hq]
  split
  · rename_i h
    have hle : 3 ≤ p.length := (List.isPrefixOf_iff_prefix.mp h).length_le
    rw [List.take_append_of_le_length hle]
  · split
    · rename_i h
      rw [List.take_append_of_le_length (by omega)]
    · rfl

end Markup

/-! ## Headers of heredocs -/

namespace Heredoc

/-- A text after which a quote would belong to the header of a heredoc, as the first or the second
quote of its label. -/
def AwaitsQuote (p : Bytes) : Prop :=
  ∃ blanks tail, p = ascii "<<<" ++ (blanks ++ tail) ∧ (∀ b ∈ blanks, Byte.isBlank b = true) ∧
    (tail = [] ∨ ∃ d name, tail = d :: name ∧ (d = Byte.singleQuote ∨ d = Byte.doubleQuote) ∧
      ∀ b ∈ name, Byte.isNameByte b = true)

variable {p q : Bytes}

theorem label?_append (hq : QuoteLed q) {x : Bytes} (hx : x ≠ [])
    (hname : ∀ d name, x = d :: name → d = Byte.singleQuote ∨ d = Byte.doubleQuote →
      ¬ ∀ b ∈ name, Byte.isNameByte b = true) : label? (x ++ q) = label? x := by
  cases x with
  | nil => exact absurd rfl hx
  | cons d x =>
    have hstart : Quoteless Byte.isNameStart := by decide
    have hbyte : Quoteless Byte.isNameByte := by decide
    by_cases hd : d = Byte.singleQuote ∨ d = Byte.doubleQuote
    · -- The label has not ended where `x` ends, so the second quote is looked for within `x`.
      cases hrest : x.drop (x.takeWhile Byte.isNameByte).length with
      | nil =>
        refine absurd (fun b hb => ?_) (hname d x rfl hd)
        have hall := List.prefix_iff_eq_append.mp (List.takeWhile_prefix Byte.isNameByte (l := x))
        rw [hrest, List.append_nil] at hall
        rw [← hall] at hb
        exact List.mem_takeWhile_imp hb
      | cons e y =>
        have hdrop := Bytes.drop_takeWhile_append Byte.isNameByte x q
        simp only [label?, labelQuote, List.cons_append, if_pos hd, List.length_singleton,
          List.drop_succ_cons, List.drop_zero, hq.takeWhile_append hbyte, hq.startsIn_append hstart,
          hdrop, hrest, List.isPrefixOf_cons_cons, List.isPrefixOf_nil_left]
    · have happend := hq.takeWhile_append hbyte (d :: x)
      rw [List.cons_append] at happend
      simp only [label?, labelQuote, List.cons_append, if_neg hd, List.length_nil, List.drop_zero,
        happend, Bytes.startsIn_cons, List.isPrefixOf_nil_left]

theorem carriageReturn_append (hq : QuoteLed q) (p : Bytes) :
    carriageReturn (p ++ q) = carriageReturn p := by
  simp only [carriageReturn, hq.head?_append (by decide : isStringQuote Byte.cr = false)]

/-- Whether a header starts a text is known before a quote that is not part of the header. -/
theorem header?_append (hq : QuoteLed q) (hp : ¬ AwaitsQuote p) : header? (p ++ q) = header? p := by
  unfold header?
  rw [hq.after?_append (by decide)]
  cases hrest : Bytes.after? (ascii "<<<") p with
  | none => rfl
  | some rest =>
    have hblank : Quoteless Byte.isBlank := by decide
    have hlf : ∀ y, Bytes.startsWith Byte.lf (y ++ q) = Bytes.startsWith Byte.lf y :=
      hq.startsIn_append (by decide)
    have hdrop := Bytes.drop_takeWhile_append Byte.isBlank rest q
    simp only [Option.map_some, Option.bind_eq_bind, Option.bind_some, hq.takeWhile_append hblank,
      hdrop]
    generalize hx : rest.drop (rest.takeWhile Byte.isBlank).length = x
    have hrest' : rest = rest.takeWhile Byte.isBlank ++ x := by
      rw [← hx]
      exact (List.prefix_iff_eq_append.mp (List.takeWhile_prefix Byte.isBlank)).symm
    have hawait : ¬ (x = [] ∨ ∃ d name, x = d :: name ∧
        (d = Byte.singleQuote ∨ d = Byte.doubleQuote) ∧ ∀ b ∈ name, Byte.isNameByte b = true) := by
      intro htail
      refine hp ⟨rest.takeWhile Byte.isBlank, x, ?_, fun b hb => List.mem_takeWhile_imp hb, htail⟩
      rw [← hrest']
      exact Bytes.eq_of_after? hrest
    rw [label?_append hq (fun h => hawait (Or.inl h))
      fun d name h hd hname => hawait (Or.inr ⟨d, name, h, hd, hname⟩)]
    cases hlabel : label? x with
    | none => rfl
    | some wl =>
      obtain ⟨written, label⟩ := wl
      have hwritten := (label?_isPrefix hlabel).length_le
      have hcr := (carriageReturn_isPrefix (x.drop written.length)).length_le
      simp only [Option.bind_some, List.drop_append_of_le_length hwritten, carriageReturn_append hq,
        List.drop_append_of_le_length hcr, hlf]

/-- A label is a name. -/
theorem label_of_label? {x written label : Bytes} (h : label? x = some (written, label)) :
    label ≠ [] ∧ label.quoteFree = true := by
  unfold label? at h
  dsimp only at h
  split at h
  · rename_i hname
    obtain ⟨-, rfl⟩ := Prod.mk.inj (Option.some.inj h)
    generalize List.drop (labelQuote _).length _ = inner at hname
    constructor
    · intro hnil
      cases inner with
      | nil => simp at hname
      | cons b inner =>
        have hb : Byte.isNameByte b = true := by
          simp [Byte.isNameByte, show Byte.isNameStart b = true from hname.1]
        simp [hb] at hnil
    · rw [Bytes.quoteFree, List.all_eq_true]
      intro b hb
      have hb := List.mem_takeWhile_imp hb
      rw [Bool.not_eq_true']
      by_contra hquote
      simp only [isStringQuote, Bool.or_eq_true, beq_iff_eq, Bool.not_eq_false] at hquote
      have hbyte : Byte.isNameByte b = false := Quoteless.eq_false (by decide) hquote
      simp [hbyte] at hb
  · cases h

theorem label_of_header? {s : Bytes} {header : Header} (h : header? s = some header) :
    header.label ≠ [] ∧ header.label.quoteFree = true := by
  simp only [header?, Option.bind_eq_bind, Option.bind_eq_some_iff] at h
  obtain ⟨rest, -, ⟨written, label⟩, hlabel, h⟩ := h
  split at h
  · obtain rfl := Option.some.inj h
    exact label_of_label? hlabel
  · cases h

theorem marker?_append (hq : QuoteLed q) {label : Bytes} (hlabel : label.quoteFree = true)
    (p : Bytes) : marker? label (p ++ q) = marker? label p := by
  have hblank : Quoteless Byte.isBlank := by decide
  have hbyte : Quoteless Byte.isNameByte := by decide
  simp only [marker?, hq.takeWhile_append hblank, Bytes.drop_takeWhile_append,
    hq.after?_append hlabel]
  cases Bytes.after? label (p.drop (p.takeWhile Byte.isBlank).length) with
  | none => rfl
  | some rest => simp only [Option.map_some, hq.startsIn_append hbyte]

end Heredoc

/-! ## Classes that may hold quotes

From here on `q` and `q'` both begin with a quote, and what is read in `p ++ q` ends within `p`. -/

section Long

variable {p q q' : Bytes} (hq : QuoteLed q) (hq' : QuoteLed q')
include hq hq'

namespace Trivia

theorem lineBody_append : ∀ {p : Bytes}, (lineBody (p ++ q)).length ≤ p.length →
    lineBody (p ++ q') = lineBody (p ++ q)
  | [], h => by
    obtain ⟨c, u, rfl, rfl | rfl⟩ := hq <;> simp +decide [lineBody] at h
  | d :: p, h => by
    have hhead := hq.head?_append_congr hq' (by decide : isStringQuote Byte.greater = false) p
    simp only [List.cons_append, lineBody, hhead] at h ⊢
    split
    · rfl
    · rename_i hc
      rw [if_neg hc] at h
      rw [lineBody_append (Nat.le_of_succ_le_succ h)]

theorem blockBody?_append : ∀ {p body : Bytes}, blockBody? (p ++ q) = some body →
    body.length ≤ p.length → blockBody? (p ++ q') = some body
  | [], body, h, hle => by
    obtain rfl := List.eq_nil_of_length_eq_zero (Nat.le_zero.mp hle)
    obtain ⟨c, u, rfl, rfl | rfl⟩ := hq <;> simp +decide [blockBody?] at h
  | d :: p, body, h, hle => by
    have hhead := hq.head?_append_congr hq' (by decide : isStringQuote Byte.slash = false) p
    simp only [List.cons_append, blockBody?, hhead] at h ⊢
    split
    · rename_i hc
      rwa [if_pos hc] at h
    · rename_i hc
      rw [if_neg hc] at h
      obtain ⟨inner, hinner, rfl⟩ := Option.map_eq_some_iff.mp h
      rw [blockBody?_append hinner (Nat.le_of_succ_le_succ hle), Option.map_some]

theorem slashComment?_append
    (h : ∀ t, slashComment? (p ++ q) = some t → t.text.length ≤ p.length + 1) :
    slashComment? (p ++ q') = slashComment? (p ++ q) := by
  cases p with
  | nil =>
    obtain ⟨c, u, rfl, rfl | rfl⟩ := hq <;> obtain ⟨c, u, rfl, rfl | rfl⟩ := hq' <;>
      simp +decide [slashComment?]
  | cons d p =>
    simp only [List.cons_append, slashComment?] at h ⊢
    split
    · rename_i hd
      have hle := h _ (if_pos hd)
      simp only [text, List.length_cons] at hle
      rw [lineBody_append hq hq' (by omega)]
    · rename_i hslash
      rw [if_neg hslash] at h
      split
      · rename_i hstar
        rw [if_pos hstar] at h
        cases hbody : blockBody? (p ++ q) with
        | some body =>
          rw [hbody] at h
          have hle := h _ rfl
          simp only [text, List.length_cons] at hle
          rw [blockBody?_append hq hq' hbody (by omega)]
        | none =>
          -- Without an end the comment takes the quote too.
          rw [hbody] at h
          have hle := h _ rfl
          obtain ⟨c, u, rfl, -⟩ := hq
          simp only [text, List.length_cons, List.length_append] at hle
          omega
      · rfl

theorem first?_append (h : ∀ t, first? (p ++ q) = some t → t.text.length ≤ p.length) :
    first? (p ++ q') = first? (p ++ q) := by
  cases p with
  | nil =>
    obtain ⟨c, u, rfl, rfl | rfl⟩ := hq <;> obtain ⟨c, u, rfl, rfl | rfl⟩ := hq' <;>
      simp +decide [first?]
  | cons d p =>
    have hhead := hq.head?_append_congr hq' (by decide : isStringQuote Byte.openBracket = false) p
    simp only [List.cons_append, first?, hhead] at h ⊢
    split
    · rfl
    · rename_i hspace
      rw [if_neg hspace] at h
      split
      · rename_i hhash
        rw [if_pos hhash] at h
        split
        · rfl
        · rename_i hbracket
          rw [if_neg hbracket] at h
          have hle := h _ rfl
          simp only [text, List.length_cons] at hle
          rw [lineBody_append hq hq' (by omega)]
      · rename_i hhash
        rw [if_neg hhash] at h
        split
        · rename_i hslash
          rw [if_pos hslash] at h
          exact slashComment?_append hq hq' h
        · rfl

theorem run_append (h : (join (run (p ++ q))).length ≤ p.length) :
    run (p ++ q') = run (p ++ q) := by
  induction hn : p.length using Nat.strongRecOn generalizing p with
  | ind n ih =>
    cases hfirst : first? (p ++ q) with
    | none =>
      have hsame := first?_append hq hq' (p := p) (by simp [hfirst])
      rw [run_of_none hfirst, run_of_none (hsame.trans hfirst)]
    | some piece =>
      rw [run_of_some hfirst, join_cons, List.length_append] at h
      have hpiece : piece.text.length ≤ p.length := by omega
      have hsame := first?_append hq hq' (p := p) (by simpa [hfirst] using hpiece)
      have hpos := List.length_pos_iff.mpr (text_ne_nil_of_first? hfirst)
      rw [run_of_some hfirst, run_of_some (hsame.trans hfirst)]
      rw [List.drop_append_of_le_length hpiece] at h ⊢
      rw [List.drop_append_of_le_length hpiece]
      congr 1
      refine ih _ ?_ ?_ rfl
      · rw [List.length_drop]
        omega
      · rw [List.length_drop]
        omega

end Trivia

namespace Quoted

theorem body?_append (quote : UInt8) : ∀ {p body : Bytes}, body? quote (p ++ q) = some body →
    body.length ≤ p.length → body? quote (p ++ q') = some body
  | [], body, h, hle => by
    obtain rfl := List.eq_nil_of_length_eq_zero (Nat.le_zero.mp hle)
    exact absurd h (body?_ne_some_nil quote _)
  | [d], body, h, hle => by
    obtain ⟨c, u, rfl, -⟩ := hq
    obtain ⟨c', u', rfl, -⟩ := hq'
    rw [List.cons_append, List.nil_append, body?] at h ⊢
    split
    · rename_i hd
      rw [if_pos hd] at h
      obtain ⟨inner, hinner, rfl⟩ := Option.map_eq_some_iff.mp h
      simp at hle
    · rename_i hd
      rw [if_neg hd] at h
      split
      · rename_i hd'
        rwa [if_pos hd'] at h
      · rename_i hd'
        rw [if_neg hd'] at h
        obtain ⟨inner, hinner, rfl⟩ := Option.map_eq_some_iff.mp h
        obtain rfl : inner = [] := by simpa using hle
        exact absurd hinner (body?_ne_some_nil quote _)
  | d :: e :: p, body, h, hle => by
    rw [List.cons_append, List.cons_append, body?] at h ⊢
    split
    · rename_i hd
      rw [if_pos hd] at h
      obtain ⟨inner, hinner, rfl⟩ := Option.map_eq_some_iff.mp h
      simp only [List.length_cons] at hle
      rw [body?_append quote hinner (by omega), Option.map_some]
    · rename_i hd
      rw [if_neg hd] at h
      split
      · rename_i hd'
        rwa [if_pos hd'] at h
      · rename_i hd'
        rw [if_neg hd'] at h
        obtain ⟨inner, hinner, rfl⟩ := Option.map_eq_some_iff.mp h
        simp only [List.length_cons] at hle
        have hsame := body?_append quote (p := e :: p) hinner (by simpa using hle)
        rw [List.cons_append] at hsame
        rw [hsame, Option.map_some]

theorem quoted?_append (hp : p ≠ [])
    (h : ∀ l, quoted? (p ++ q) = some l → l.text.length ≤ p.length) :
    quoted? (p ++ q') = quoted? (p ++ q) := by
  cases p with
  | nil => exact absurd rfl hp
  | cons d p =>
    simp only [List.cons_append, quoted?] at h ⊢
    split
    · rename_i hd
      rw [if_pos hd] at h
      cases hbody : body? d (p ++ q) with
      | some body =>
        rw [hbody] at h
        have hle := h _ rfl
        simp only [List.length_cons] at hle
        rw [body?_append hq hq' d hbody (by omega)]
      | none =>
        -- Without an end the string takes the quote too.
        rw [hbody] at h
        have hle := h _ rfl
        obtain ⟨c, u, rfl, -⟩ := hq
        simp only [List.length_cons, List.length_append] at hle
        omega
    · rfl

end Quoted

namespace Heredoc

theorem closing?_append {label : Bytes} (hnil : label ≠ []) (hfree : label.quoteFree = true) :
    ∀ {p body : Bytes} {fresh : Bool}, closing? label fresh (p ++ q) = some body →
      body.length ≤ p.length → closing? label fresh (p ++ q') = some body
  | [], body, fresh, h, hle => by
    -- No marker starts at a quote, so what is found would hold the quote.
    have hmarker : marker? label ([] ++ q) = none := by
      rw [marker?_append hq hfree]
      obtain ⟨b, label, rfl⟩ := List.exists_cons_of_ne_nil hnil
      rfl
    obtain ⟨c, u, rfl, -⟩ := hq
    rw [List.nil_append] at hmarker h
    rw [closing?, hmarker, ite_self] at h
    obtain ⟨inner, -, rfl⟩ := Option.map_eq_some_iff.mp h
    simp at hle
  | d :: p, body, fresh, h, hle => by
    have hmarker : marker? label (d :: (p ++ q')) = marker? label (d :: (p ++ q)) :=
      (marker?_append hq' hfree (d :: p)).trans (marker?_append hq hfree (d :: p)).symm
    rw [List.cons_append, closing?] at h ⊢
    rw [hmarker]
    split
    · rename_i marker hfound
      rw [hfound] at h
      exact h
    · rename_i hfound
      rw [hfound] at h
      obtain ⟨inner, hinner, rfl⟩ := Option.map_eq_some_iff.mp h
      rw [closing?_append hnil hfree hinner (Nat.le_of_succ_le_succ hle), Option.map_some]

theorem heredoc?_append (hp : ¬ AwaitsQuote p)
    (h : ∀ l, heredoc? (p ++ q) = some l → l.text.length ≤ p.length) :
    heredoc? (p ++ q') = heredoc? (p ++ q) := by
  unfold heredoc? at h ⊢
  rw [header?_append hq hp] at h ⊢
  rw [header?_append hq' hp]
  cases hheader : header? p with
  | none => rfl
  | some header =>
    rw [hheader] at h
    have hle := h _ rfl
    have hfit := (header?_isPrefix hheader).length_le
    obtain ⟨hnil, hfree⟩ := label_of_header? hheader
    simp only [Option.map_some, List.drop_append_of_le_length hfit] at hle ⊢
    cases hbody : closing? header.label false (p.drop header.text.length ++ q) with
    | some body =>
      rw [hbody] at hle
      simp only [List.length_append] at hle
      rw [closing?_append hq hq' hnil hfree hbody (by rw [List.length_drop]; omega)]
    | none =>
      -- Without an end the heredoc takes the quote too.
      rw [hbody] at hle
      obtain ⟨c, u, rfl, -⟩ := hq
      simp only [List.length_append, List.length_cons] at hle
      omega

end Heredoc

namespace Markup

theorem openTag?_append (p : Bytes) : openTag? (p ++ q') = openTag? (p ++ q) :=
  (openTag?_before_quote hq' p).trans (openTag?_before_quote hq p).symm

theorem html_append : ∀ {p : Bytes}, (html (p ++ q)).length ≤ p.length →
    html (p ++ q') = html (p ++ q)
  | [], h => by
    have htag : openTag? q = none := openTag?_before_quote hq []
    obtain ⟨c, u, rfl, -⟩ := hq
    simp [html, htag] at h
  | d :: p, h => by
    have htag := openTag?_append hq hq' (d :: p)
    simp only [List.cons_append] at htag h ⊢
    rw [html] at h ⊢
    rw [html, htag]
    split
    · rfl
    · rename_i hnone
      rw [if_neg hnone] at h
      rw [html_append (Nat.le_of_succ_le_succ h)]

end Markup

/-! ## Tokens -/

theorem markupLexeme_append (hp : p ≠ []) (h : (markupLexeme (p ++ q)).text.length ≤ p.length) :
    markupLexeme (p ++ q') = markupLexeme (p ++ q) := by
  cases p with
  | nil => exact absurd rfl hp
  | cons d p =>
    have htag := Markup.openTag?_append hq hq' (d :: p)
    simp only [List.cons_append] at htag h ⊢
    simp only [markupLexeme, htag] at h ⊢
    split
    · rfl
    · rename_i hnone
      rw [hnone] at h
      exact congrArg (Lexeme.mk .inlineHtml) (Markup.html_append hq hq' (p := d :: p) h)

theorem codeLexeme_append (hp : p ≠ []) (hheader : ¬ Heredoc.AwaitsQuote p)
    (h : (codeLexeme (p ++ q)).text.length ≤ p.length) :
    codeLexeme (p ++ q') = codeLexeme (p ++ q) := by
  have hclose := (Markup.closeTag?_append hq' p).trans (Markup.closeTag?_append hq p).symm
  have hvar := (Name.variableName?_append hq' p).trans (Name.variableName?_append hq p).symm
  have hname := (Name.identifier?_append hq' p).trans (Name.identifier?_append hq p).symm
  have hnumber := (Number.number?_append hq' p).trans (Number.number?_append hq p).symm
  cases p with
  | nil => exact absurd rfl hp
  | cons d p =>
    have hsymbol := (Symbol.symbol_append hq' d p).trans (Symbol.symbol_append hq d p).symm
    have hquoted := Quoted.quoted?_append hq hq' hp
    have hheredoc := Heredoc.heredoc?_append hq hq' hheader
    simp only [List.cons_append] at hclose hvar hname hnumber hquoted hheredoc h ⊢
    -- Strings and heredocs are compared only where the classes before them do not fit.
    simp only [codeLexeme, hclose, hvar, hname, hnumber, hsymbol] at h ⊢
    cases hnoTag : Markup.closeTag? (d :: (p ++ q)) with
    | some tag => rfl
    | none =>
    cases hnoVar : Name.variableName? (d :: (p ++ q)) with
    | some name => rfl
    | none =>
    cases hnoName : Name.identifier? (d :: (p ++ q)) with
    | some name => rfl
    | none =>
    cases hnoNumber : Number.number? (d :: (p ++ q)) with
    | some text => rfl
    | none =>
    rw [hnoTag, hnoVar, hnoName, hnoNumber] at h
    have hquoted' := hquoted fun l hl => by simpa [hl] using h
    rw [hquoted']
    cases hnoString : Quoted.quoted? (d :: (p ++ q)) with
    | some l => rfl
    | none =>
    rw [hnoString] at h
    rw [hheredoc fun l hl => by simpa [hl] using h]

/-- Texts that agree up to a quote in each are read alike, if what is read ends before the quotes
and no header of a heredoc waits for one. -/
theorem Mode.read_append {mode : Mode} (hkind : (mode.read (p ++ q)).lexeme.kind ≠ .eof)
    (hheader : mode = .code → ¬ Heredoc.AwaitsQuote (p.drop (mode.read (p ++ q)).gapSize))
    (h : (mode.read (p ++ q)).size ≤ p.length) : mode.read (p ++ q') = mode.read (p ++ q) := by
  have htext := List.length_pos_iff.mpr (text_ne_nil_of_read hkind)
  cases mode with
  | markup =>
    simp only [read, Reading.size, Reading.gapSize, Trivia.join_nil, List.length_nil,
      Nat.zero_add] at h htext ⊢
    rw [markupLexeme_append hq hq' (List.ne_nil_of_length_pos (by omega)) h]
  | code =>
    have hheader := hheader rfl
    simp only [read, Reading.size, Reading.gapSize] at h htext hheader ⊢
    have hgap : (Trivia.join (Trivia.run (p ++ q))).length ≤ p.length := by omega
    rw [Trivia.run_append hq hq' hgap]
    rw [List.drop_append_of_le_length hgap] at h htext ⊢
    rw [List.drop_append_of_le_length hgap]
    generalize hg : (Trivia.join (Trivia.run (p ++ q))).length = g at hgap hheader h htext ⊢
    have hfit : (codeLexeme (p.drop g ++ q)).text.length ≤ (p.drop g).length := by
      rw [List.length_drop]
      omega
    rw [codeLexeme_append hq hq' (List.ne_nil_of_length_pos (by omega)) hheader hfit]

end Long

end TextDomain
