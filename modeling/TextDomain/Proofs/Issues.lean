import Mathlib.Data.List.Forall2
import TextDomain.Proofs.Layout
import TextDomain.Proofs.Places
import TextDomain.Proofs.Settling

/-!
# What issues say

A finding is reported and its fix is taken before the next one is reported, so its replacement goes
on record with its own issue, also where two calls have the same literal
(`Draft.reportOne_of_lt`). The issues of a content are therefore made from the findings one by one
(`Renaming.issues_lint`).

`Finding.ReportedBy` says what an issue tells about a finding: where the literal stands
(`Issue.Locates`), which function is called, and what is to be put in its place.
-/

namespace TextDomain

/-! ## One issue for each finding -/

namespace Draft

variable {d : Draft}

/-- The issue of a finding of which the fix is taken. -/
def issueOf (d : Draft) (r : Renaming) (f : Finding) : Issue :=
  { d.issueAt (d.tokens.getD f.position default) (r.message f.function) Renaming.issueCode with
    replacement := f.replacement }

/-- A finding makes one complaint, which its replacement goes on record with. -/
theorem reportOne_of_lt (r : Renaming) (haccept : d.accepting = true) {f : Finding}
    (hf : f.position < d.tokens.size) : r.reportOne d f =
      { d with
        complaints := ⟨f.position, d.issueOf r f⟩ :: d.complaints
        marks := d.marks.setIfInBounds f.position (some f.replacement) } := by
  have htoken : d.tokens[f.position]? = some (d.tokens.getD f.position default) := by
    simp [hf]
  rw [reportOne_eq r haccept, report, htoken]
  simp only [replace, hf, if_true, recordReplacement]
  rfl

theorem complaints_reportAll (r : Renaming) {fs : List Finding} (haccept : d.accepting = true)
    (hfs : ∀ f ∈ fs, f.position < d.tokens.size) : (fs.foldl r.reportOne d).complaints =
      (fs.map fun f => ⟨f.position, d.issueOf r f⟩).reverse ++ d.complaints := by
  induction fs generalizing d with
  | nil => rfl
  | cons f fs ih =>
    obtain ⟨hf, hfs⟩ := List.forall_mem_cons.mp hfs
    rw [List.foldl_cons, reportOne_of_lt r haccept hf, List.map_cons, List.reverse_cons,
      List.append_assoc]
    -- no report changes what the next issues are made from
    exact ih haccept hfs

theorem issues_rename (r : Renaming) (haccept : d.accepting = true) :
    (d.rename r).issues = d.issues ++ (r.findings d.lexemes).map (d.issueOf r) := by
  have hpositions : ∀ f ∈ r.findings d.lexemes, f.position < d.tokens.size := by
    intro f hf
    obtain ⟨text, hliteral, -⟩ := Renaming.literal_of_mem_findings hf
    obtain ⟨hlt, -⟩ := List.getElem?_eq_some_iff.mp hliteral
    rwa [lexemes, List.length_map, Array.length_toList] at hlt
  set d' := { d with events := d.events ++ (r.findings d.lexemes).map Finding.event }
  have hcomplaints : (d.rename r).complaints =
      ((r.findings d.lexemes).map fun f => ⟨f.position, d.issueOf r f⟩).reverse ++ d.complaints :=
    complaints_reportAll (d := d') r haccept hpositions
  rw [issues, hcomplaints, List.reverse_append, List.reverse_reverse, List.map_append, List.map_map]
  rfl

end Draft

/-- The issues of a content are those of its findings. -/
theorem Renaming.issues_lint (r : Renaming) (fix : Bool) (path content : Bytes) :
    (r.lint fix path content).1.issues = (r.findings (Source.mk path content).lexemes).map
      ((Draft.ofSource ⟨path, content⟩ true ruleName).issueOf r) := by
  have hissues : (r.lint fix path content).1.issues = (r.pass path content).issues := by
    cases fix <;> rfl
  rw [hissues, pass, Draft.issues_rename r rfl]
  rfl

/-! ## Where an issue is -/

/-- An issue is where a token stands: it has the length of the token, the line and column of its
first byte, and those of its last. -/
structure Issue.Locates (issue : Issue) (s : Source) (t : Token) : Prop where
  length : issue.length.toNat = t.text.length
  slice : s.slice t.offset (t.offset + issue.length.toNat) = t.text
  first : IsPlace s.content t.offset issue.line.toNat issue.column.toNat
  last : IsPlace s.content (t.offset + issue.length.toNat - 1) issue.endLine.toNat
    issue.endColumn.toNat

theorem Draft.locates_issueAt {s : Source} {t : Token} (hsize : s.content.length < 2 ^ 32)
    (ht : t ∈ s.tokens) (htext : t.text ≠ []) (accepting : Bool) (rule message code : Bytes) :
    ((Draft.ofSource s accepting rule).issueAt t message code).Locates s t := by
  obtain ⟨hstop, hslice⟩ := Source.slice_of_mem_tokens ht
  have hbound : t.offset + t.text.length < 2 ^ 32 := Nat.lt_of_le_of_lt hstop hsize
  have hpos : 0 < t.text.length := List.length_pos_iff.mpr htext
  have hlength : (UInt32.ofNat t.text.length).toNat = t.text.length :=
    UInt32.toNat_ofNat_of_lt' (Nat.lt_of_le_of_lt (Nat.le_add_left _ _) hbound)
  have hoffset : (UInt32.ofNat t.offset).toNat = t.offset :=
    UInt32.toNat_ofNat_of_lt' (Nat.lt_of_le_of_lt (Nat.le_add_right _ _) hbound)
  have hlast : t.offset + (UInt32.ofNat t.text.length).toNat - 1 =
      t.offset + (t.text.length - 1) := by omega
  refine ⟨hlength, ?_, ?_, ?_⟩
  · exact (congrArg (s.slice t.offset <| t.offset + ·) hlength).trans hslice
  · show IsPlace s.content t.offset (s.location (UInt32.ofNat t.offset).toNat).line.toNat
      (s.location (UInt32.ofNat t.offset).toNat).column.toNat
    rw [hoffset]
    exact s.isPlace_location (by omega)
  · show IsPlace s.content (t.offset + (UInt32.ofNat t.text.length).toNat - 1) _ _
    rw [hlast]
    exact s.isPlace_location (by omega)

/-! ## What an issue tells -/

/-- What an issue tells about a finding in a source. -/
structure Finding.ReportedBy (f : Finding) (r : Renaming) (s : Source) (issue : Issue) : Prop where
  /-- The issue is where a whole literal of the old domain stands. -/
  literal : ∃ t quote, s.tokens[f.position]? = some t ∧ t.kind = .string ∧
    (quote = Byte.singleQuote ∨ quote = Byte.doubleQuote) ∧
    t.text = quote :: (r.old ++ [quote]) ∧ issue.Locates s t
  /-- The literal is the text domain of a call, of the function that the message names. -/
  call : ∃ i, s.lexemes[i]? = some ⟨.identifier, f.function⟩ ∧
    isDomainFunction f.function = true ∧
    (domainArgument (i + 1) (s.lexemes.drop (i + 1))).map Argument.position = some f.position
  message : issue.message = ascii "Text domain \"" ++ r.old ++ ascii "\" in function " ++
    f.function ++ ascii "() should be replaced with \"" ++ r.new ++ ascii "\"."
  /-- The new domain stands in single quotes, whatever the old one stood in. -/
  replacement : issue.replacement = Byte.singleQuote :: (r.new ++ [Byte.singleQuote])
  origin : issue.file = s.name ∧ issue.code = ascii "TextDomain.ReplaceDomain" ∧
    issue.fixable = true

namespace Renaming

variable {r : Renaming}

/-- A finding is the text domain of a call. -/
theorem call_of_mem_findings {tokens : List Lexeme} {f : Finding} (h : f ∈ r.findings tokens) :
    ∃ i, tokens[i]? = some ⟨.identifier, f.function⟩ ∧ isDomainFunction f.function = true ∧
      (domainArgument (i + 1) (tokens.drop (i + 1))).map Argument.position = some f.position := by
  obtain ⟨-, i, hi⟩ := mem_findings_iff.mp h
  obtain ⟨name, a, hname, hdomain, ha, -, rfl⟩ := findingAt_eq_some_iff.mp hi
  rw [Lexeme.namesDomainFunction, Bool.and_eq_true, beq_iff_eq] at hdomain
  refine ⟨i, ?_, hdomain.2, by rw [ha]; rfl⟩
  rw [hname, ← hdomain.1]

theorem reportedBy_issueOf {s : Source} {f : Finding} (hsize : s.content.length < 2 ^ 32)
    (h : f ∈ r.findings s.lexemes) :
    f.ReportedBy r s ((Draft.ofSource s true ruleName).issueOf r f) := by
  obtain ⟨text, hliteral, hold⟩ := literal_of_mem_findings h
  obtain ⟨quote, inner, hquote, rfl⟩ := Source.shape_of_literal hliteral
  rw [unquote_of_quoted hquote] at hold
  subst hold
  rw [Source.lexemes, List.getElem?_map, Option.map_eq_some_iff] at hliteral
  obtain ⟨t, ht, hlexeme⟩ := hliteral
  have htext : t.text = quote :: (r.old ++ [quote]) := congrArg Lexeme.text hlexeme
  have htoken : (Draft.ofSource s true ruleName).tokens.getD f.position default = t := by
    simp [Draft.ofSource, ht]
  have hlocates := Draft.locates_issueAt hsize (List.mem_of_getElem? ht)
    (by rw [htext]; exact List.cons_ne_nil _ _) true ruleName (r.message f.function) issueCode
  rw [Draft.issueOf, htoken]
  exact
    { literal := ⟨t, quote, ht, congrArg Lexeme.kind hlexeme, hquote, htext,
        hlocates.length, hlocates.slice, hlocates.first, hlocates.last⟩
      call := call_of_mem_findings h
      message := rfl
      replacement := replacement_of_mem_findings h
      origin := ⟨rfl, rfl, rfl⟩ }

/-- The issues of a content, checked or fixed, tell about its findings one by one. -/
theorem issues_report_findings (r : Renaming) (fix : Bool) (path content : Bytes)
    (hsize : content.length < 2 ^ 32) :
    let s := Source.mk path content
    List.Forall₂ (fun f issue => f.ReportedBy r s issue) (r.findings s.lexemes)
      (r.lint fix path content).1.issues := by
  intro s
  rw [issues_lint, List.forall₂_map_right_iff, List.forall₂_same]
  exact fun f hf => reportedBy_issueOf hsize hf

/-- Two calls, one inside the other, with the same literal. It stands on two lines. -/
theorem issues_report_findings_nested :
    let r : Renaming := ⟨ascii "a\nb", ascii "c"⟩
    let s := Source.mk (ascii "p") (ascii "<?php\n__(1, _e(\"a\nb\"));")
    let issues := (r.lint true s.name s.content).1.issues
    s.content.length < 2 ^ 32 ∧
      List.Forall₂ (fun f issue => f.ReportedBy r s issue) (r.findings s.lexemes) issues ∧
      issues.map (fun i => (i.line, i.column, i.length, i.endLine, i.endColumn)) =
        [(2, 10, 5, 3, 2), (2, 10, 5, 3, 2)] := by
  intro r s issues
  have hsize : s.content.length < 2 ^ 32 := by decide
  exact ⟨hsize, issues_report_findings r true s.name s.content hsize, by decide +kernel⟩

end Renaming

end TextDomain
