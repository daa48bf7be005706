import TextDomain.Proofs.Excerpts
import TextDomain.Proofs.Issues

/-!
# Previews of fixes

An issue is shown with the line as it will read after its fix. The preview is made from one line and
two columns, the fix from offsets in the whole content. They meet in the cut of the content at a
token that stands on one line (`LineCut`): the columns of an issue cut its line where the offsets of
the token cut the content (`Issue.Locates.exists_cut`).

A literal and its replacement both end with a quote. So a carriage return that is no part of the
line is none of theirs, and the line ends the same way before and after the fix (`LineCut.line_eq`).
-/

namespace TextDomain

/-! ## Cutting a content at a token -/

/-- A content cut where a text stands on one line: the whole lines before it, its line up to it and
after it, and the rest. -/
structure LineCut (content lines start text tail rest : Bytes) : Prop where
  content_eq : content = lines ++ (start ++ text ++ tail ++ rest)
  isLines : IsLines lines
  start_lf : Byte.lf ∉ start
  text_lf : Byte.lf ∉ text
  tail_lf : Byte.lf ∉ tail
  rest_eq : rest = [] ∨ rest.head? = some Byte.lf

/-- The last byte of a text is a quote. -/
def EndsInQuote (text : Bytes) : Prop :=
  ∃ quote, (quote = Byte.singleQuote ∨ quote = Byte.doubleQuote) ∧ text.getLast? = some quote

theorem EndsInQuote.getLast?_ne {text : Bytes} (h : EndsInQuote text) {c : UInt8}
    (hc : c ≠ Byte.singleQuote ∧ c ≠ Byte.doubleQuote) : text.getLast? ≠ some c := by
  obtain ⟨quote, hquote, hlast⟩ := h
  rw [hlast, ne_eq, Option.some.injEq]
  rintro rfl
  exact hquote.elim hc.1 hc.2

theorem chompLine_append {a tail : Bytes} (hlf : Byte.lf ∉ a) (hcr : a.getLast? ≠ some Byte.cr)
    (htail : Byte.lf ∉ tail) : chompLine (a ++ tail) = a ++ chompLine tail := by
  rw [← dropCarriageReturn_eq htail, ← dropCarriageReturn_eq (by simp [hlf, htail])]
  rcases List.eq_nil_or_concat tail with rfl | ⟨init, c, rfl⟩
  · simp [dropCarriageReturn, hcr]
  · rw [dropCarriageReturn, dropCarriageReturn, List.concat_eq_append, ← List.append_assoc]
    simp only [List.getLast?_concat, List.dropLast_concat]
    split <;> simp

namespace LineCut

variable {content lines start text tail rest : Bytes}

/-- A line keeps its text up to a quote that it is cut at. -/
theorem line_eq (h : LineCut content lines start text tail rest) (htext : EndsInQuote text)
    (name : Bytes) {number : UInt32} (hnumber : number.toNat = lines.count Byte.lf + 1) :
    (Source.mk name content).line number = start ++ text ++ chompLine tail := by
  have hlf : Byte.lf ∉ start ++ text := by simp [h.start_lf, h.text_lf]
  have hcr : (start ++ text).getLast? ≠ some Byte.cr := by
    obtain ⟨quote, -, hlast⟩ := id htext
    have hne := htext.getLast?_ne (c := Byte.cr) (by decide)
    rwa [List.getLast?_append, hlast, Option.some_or, ← hlast]
  rw [Source.line_of_lines (s := ⟨name, content⟩) h.content_eq h.isLines
    (by simp [h.start_lf, h.text_lf, h.tail_lf]) h.rest_eq hnumber]
  exact chompLine_append hlf hcr h.tail_lf

/-- Another text in place of the one that the content is cut at. -/
theorem replace (h : LineCut content lines start text tail rest) {new : Bytes}
    (hnew : Byte.lf ∉ new) :
    LineCut (lines ++ (start ++ new ++ tail ++ rest)) lines start new tail rest :=
  ⟨rfl, h.isLines, h.start_lf, hnew, h.tail_lf, h.rest_eq⟩

end LineCut

theorem IsPlace.of_lines {content lines start : Bytes} {offset line column : Nat}
    (h : IsPlace content offset line column) (htake : content.take offset = lines ++ start)
    (hlines : IsLines lines) (hstart : Byte.lf ∉ start) :
    line = lines.count Byte.lf + 1 ∧ column = offset - lines.length + 1 := by
  obtain ⟨lines', start', htake', hlines', hstart', rfl, rfl⟩ := h
  have hlength : lines'.length = lines.length := by
    rw [← getLastD_lineStarts hlines' hstart', ← htake', htake, getLastD_lineStarts hlines hstart]
  obtain ⟨rfl, -⟩ := List.append_inj (htake'.symm.trans htake) hlength
  exact ⟨rfl, rfl⟩

theorem IsPlace.line_eq {content : Bytes} {offset line column : Nat}
    (h : IsPlace content offset line column) :
    line = (content.take offset).count Byte.lf + 1 := by
  obtain ⟨lines, start, htake, -, hstart, rfl, -⟩ := h
  rw [htake, List.count_append, List.count_eq_zero.mpr hstart, Nat.add_zero]

/-- The columns of an issue cut its line where its token cuts the content. -/
theorem Issue.Locates.exists_cut {issue : Issue} {s : Source} {t : Token} (h : issue.Locates s t)
    (htext : EndsInQuote t.text) (hline : issue.endLine = issue.line) :
    ∃ lines start tail rest, LineCut s.content lines start t.text tail rest ∧
      s.content.take t.offset = lines ++ start ∧ s.content.drop t.stop = tail ++ rest ∧
      issue.line.toNat = lines.count Byte.lf + 1 ∧
      issue.column.toNat = start.length + 1 ∧
      issue.endColumn.toNat = start.length + t.text.length := by
  obtain ⟨lines, start, htake, hlines, hstart⟩ := exists_lines (s.content.take t.offset)
  obtain ⟨tail, rest, hdrop, htail, hrest⟩ := exists_line (s.content.drop t.stop)
  obtain ⟨quote, hquote, hlast⟩ := id htext
  obtain ⟨body, hbody⟩ := List.getLast?_eq_some_iff.mp hlast
  have hslice : (s.content.drop t.offset).take t.text.length = t.text := by
    have hslice := h.slice
    rwa [Source.slice, Nat.add_sub_cancel_left, h.length] at hslice
  have hsuffix : s.content.drop t.offset = t.text ++ (tail ++ rest) := by
    rw [← List.take_append_drop t.text.length (s.content.drop t.offset), hslice, List.drop_drop,
      ← hdrop]
    rfl
  have hsize : t.text.length = body.length + 1 := by rw [hbody, List.length_append]; rfl
  have hoffset : t.offset = lines.length + start.length := by
    have hlength := congrArg List.length hsuffix
    rw [List.length_drop, List.length_append] at hlength
    rw [← List.length_append, ← htake, List.length_take]
    omega
  have hend : s.content.take (t.offset + issue.length.toNat - 1) = lines ++ (start ++ body) := by
    rw [h.length, hsize, ← Nat.add_assoc, Nat.add_sub_cancel, List.take_add, htake, hsuffix, hbody]
    simp
  have hbodylf : Byte.lf ∉ body := by
    have hfirst := h.first.line_eq
    have hsecond := h.last.line_eq
    rw [htake] at hfirst
    rw [hline, hend, ← List.append_assoc, List.count_append] at hsecond
    exact List.count_eq_zero.mp (by omega)
  have htextlf : Byte.lf ∉ t.text := by
    rw [hbody, List.mem_append, List.mem_singleton]
    rintro (hlf | rfl)
    · exact hbodylf hlf
    · exact absurd hquote (by decide)
  obtain ⟨hfirst, hcolumn⟩ := h.first.of_lines htake hlines hstart
  obtain ⟨-, hendColumn⟩ := h.last.of_lines hend hlines (by simp [hstart, hbodylf])
  have hcontent : s.content = lines ++ (start ++ t.text ++ tail ++ rest) := by
    rw [← List.take_append_drop t.offset s.content, htake, hsuffix]
    simp
  have hlength := h.length
  exact ⟨lines, start, tail, rest, ⟨hcontent, hlines, hstart, htextlf, htail, hrest⟩, htake, hdrop,
    hfirst, by omega, by omega⟩

/-! ## One replacement -/

theorem filterMap_zip_replicate_none {α β γ : Type} (l : List α) (n : Nat) (g : α → β → γ) :
    (l.zip (List.replicate n none)).filterMap (fun p => p.2.map (g p.1)) = [] := by
  rw [List.filterMap_eq_nil_iff]
  rintro ⟨a, b⟩ hmem
  obtain rfl := List.eq_of_mem_replicate (List.of_mem_zip hmem).2
  rfl

namespace Draft

theorem edits_replace {s : Source} {i : Nat} {t : Token} (ht : s.tokens[i]? = some t)
    (accepting : Bool) (rule text : Bytes) :
    ((ofSource s accepting rule).replace i text).edits = [⟨t.offset, t.text.length, text⟩] := by
  obtain ⟨hi, hget⟩ := List.getElem?_eq_some_iff.mp ht
  have htokens : s.tokens = s.tokens.take i ++ t :: s.tokens.drop (i + 1) := by
    rw [← hget, List.getElem_cons_drop, List.take_append_drop]
  have hmarks : (List.replicate s.tokens.length none).set i (some text) =
      List.replicate i none ++ some text :: List.replicate (s.tokens.length - (i + 1)) none := by
    rw [List.set_eq_take_append_cons_drop, if_pos (by simpa using hi), List.take_replicate,
      List.drop_replicate, Nat.min_eq_left (Nat.le_of_lt hi)]
  have hedits : ((ofSource s accepting rule).replace i text).edits =
      (s.tokens.zip ((List.replicate s.tokens.length none).set i (some text))).filterMap
        fun p => p.2.map fun text => ⟨p.1.offset, p.1.text.length, text⟩ := by
    simp [replace, ofSource, edits, hi]
  rw [hedits, hmarks]
  nth_rewrite 1 [htokens]
  rw [List.zip_append (by simp [Nat.le_of_lt hi]), List.zip_cons_cons, List.filterMap_append,
    List.filterMap_cons, filterMap_zip_replicate_none _ _
      fun (t : Token) text => Edit.mk t.offset t.text.length text,
    filterMap_zip_replicate_none _ _ fun (t : Token) text => Edit.mk t.offset t.text.length text]
  rfl

/-- A replacement of one token. -/
theorem content_replace {s : Source} {i : Nat} {t : Token} (ht : s.tokens[i]? = some t)
    (accepting : Bool) (rule text : Bytes) :
    ((ofSource s accepting rule).replace i text).content =
      s.content.take t.offset ++ text ++ s.content.drop t.stop := by
  have hsource : ((ofSource s accepting rule).replace i text).source = s := by
    unfold replace
    split <;> rfl
  rw [content, edits_replace ht, hsource]
  rfl

end Draft

/-! ## What is shown -/

/-- An issue is shown with its fix: after the description stands one line, and this is the line of
the issue in the content with only the token at position `i` replaced. -/
def Emitter.ShowsFix (e : Emitter) (s : Source) (i : Nat) (issue : Issue) : Prop :=
  let fixed := ((Draft.ofSource s true Renaming.ruleName).replace i issue.replacement).content
  (e.emit issue.diagnostic).1 =
    issue.diagnostic.header false ++ issue.span.place false ++
      issue.span.snippet false (s.line issue.line) ++
      ascii "  = fix: replace with " ++ issue.replacement ++ [Byte.lf] ++
      padLeft Byte.space 4 (decimal issue.line.toNat) ++ ascii " | " ++
      (Source.mk s.name fixed).line issue.line ++ [Byte.lf]

/-- The preview of a fix takes out what the columns of its issue enclose. -/
theorem Fix.preview?_of_columns {f : Fix} {start text after : Bytes} (htext : text ≠ [])
    (hline : f.span.stop.line = f.span.start.line)
    (hstart : f.span.start.column.toNat = start.length + 1)
    (hstop : f.span.stop.column.toNat = start.length + text.length) :
    f.preview? (start ++ text ++ after) = some (start, f.replacement, after) := by
  have hpos : 0 < text.length := List.length_pos_iff.mpr htext
  have hindent : f.span.indent.toNat = start.length := by
    rw [f.span.toNat_indent]
    omega
  have hwidth : (f.span.width (start ++ text ++ after)).toNat = text.length := by
    rw [Span.toNat_width_of_one_line (UInt32.le_of_eq hline)
      (UInt32.le_iff_toNat_le.mpr (by rw [hstart]; exact Nat.le_add_left _ _))
      (UInt32.le_iff_toNat_le.mpr (by omega))]
    omega
  have hshown : ¬ (f.span.stop.line > f.span.start.line ∨ start ++ text ++ after = [] ∨
      f.span.indent.toNat > (start ++ text ++ after).length) := by
    rw [hline, hindent]
    simp [htext]
  rw [preview?, if_neg hshown, hindent, hwidth, ← List.length_append, List.drop_left,
    List.append_assoc, List.take_left]

theorem Emitter.emit_of_preview {e : Emitter} {issue : Issue} {before after : Bytes}
    (hformat : e.format = .text) (hcolors : e.colors = false) (hfixable : issue.fixable = true)
    (hreplacement : issue.replacement ≠ [])
    (hline : e.sourceLine issue.file issue.line ≠ [])
    (hpreview : Fix.preview? ⟨issue.span, issue.replacement,
        ascii "replace with " ++ issue.replacement⟩ (e.sourceLine issue.file issue.line) =
      some (before, issue.replacement, after)) :
    (e.emit issue.diagnostic).1 =
      issue.diagnostic.header false ++ issue.span.place false ++
        issue.span.snippet false (e.sourceLine issue.file issue.line) ++
        ascii "  = fix: replace with " ++ issue.replacement ++ [Byte.lf] ++
        padLeft Byte.space 4 (decimal issue.line.toNat) ++ ascii " | " ++
        (before ++ issue.replacement ++ after) ++ [Byte.lf] := by
  have hfix : issue.fix? = some ⟨issue.span, issue.replacement,
      ascii "replace with " ++ issue.replacement⟩ := if_pos ⟨hfixable, hreplacement⟩
  have htitle : ascii "  = fix: replace with " =
      ascii "  = fix" ++ ascii ": " ++ ascii "replace with " := by decide
  have hspan : issue.diagnostic.span = issue.span := rfl
  have hfixes : issue.diagnostic.fixes = issue.fix?.toList := rfl
  have hsource : e.sourceLine issue.span.file issue.span.start.line =
      e.sourceLine issue.file issue.line := rfl
  rw [emit, render, hformat]
  simp only [Diagnostic.text, hspan, hfixes, hsource, hcolors, if_neg hline, hfix,
    Option.toList_some, List.flatMap_singleton, Fix.text, hpreview]
  simp [htitle, margin, Style.when, lineNumberWidth, Issue.span]

namespace Renaming

/-- The preview of every fix on one line shows what the fix does. -/
theorem previews_show_fixes (r : Renaming) (hnew : Byte.lf ∉ r.new) (fix : Bool)
    (path content : Bytes) (hsize : content.length < 2 ^ 32) (e : Emitter)
    (hformat : e.format = .text) (hcolors : e.colors = false)
    (hcontent : e.contents.lookup path = some content) :
    let s := Source.mk path content
    ∀ issue ∈ (r.lint fix path content).1.issues, issue.endLine = issue.line →
      ∃ f ∈ r.findings s.lexemes, ∃ t, s.tokens[f.position]? = some t ∧ t.kind = .string ∧
        issue.Locates s t ∧ e.ShowsFix s f.position issue := by
  intro s issue hissue hline
  rw [issues_lint] at hissue
  obtain ⟨f, hf, rfl⟩ := List.mem_map.mp hissue
  have hreported : f.ReportedBy r s _ := reportedBy_issueOf hsize hf
  obtain ⟨t, quote, ht, hkind, hquote, htext, hlocates⟩ := hreported.literal
  refine ⟨f, hf, t, ht, hkind, hlocates, ?_⟩
  set issue := (Draft.ofSource s true ruleName).issueOf r f
  have hliteral : EndsInQuote t.text :=
    ⟨quote, hquote, List.getLast?_eq_some_iff.mpr ⟨quote :: r.old, htext⟩⟩
  have hreplacement : EndsInQuote issue.replacement :=
    ⟨Byte.singleQuote, .inl rfl,
      List.getLast?_eq_some_iff.mpr ⟨Byte.singleQuote :: r.new, hreported.replacement⟩⟩
  have hreplacementlf : Byte.lf ∉ issue.replacement := by
    have hne : Byte.lf ≠ Byte.singleQuote := by decide
    rw [hreported.replacement]
    simp [hnew, hne]
  obtain ⟨lines, start, tail, rest, hcut, htake, hdrop, hnumber, hcolumn, hend⟩ :=
    hlocates.exists_cut hliteral hline
  have hshown : e.sourceLine issue.file issue.line = s.line issue.line := by
    rw [hreported.origin.1]
    exact Emitter.sourceLine_of_lookup hcontent issue.line
  have hbefore : e.sourceLine issue.file issue.line = start ++ t.text ++ chompLine tail :=
    hshown.trans (hcut.line_eq hliteral path hnumber)
  have hcontent' : ((Draft.ofSource s true ruleName).replace f.position issue.replacement).content =
      lines ++ (start ++ issue.replacement ++ tail ++ rest) := by
    rw [Draft.content_replace ht, htake, hdrop]
    simp
  have hfixed : (Source.mk path (lines ++ (start ++ issue.replacement ++ tail ++ rest))).line
      issue.line = start ++ issue.replacement ++ chompLine tail :=
    (hcut.replace hreplacementlf).line_eq hreplacement path hnumber
  have hpreview : Fix.preview? ⟨issue.span, issue.replacement,
      ascii "replace with " ++ issue.replacement⟩ (e.sourceLine issue.file issue.line) =
        some (start, issue.replacement, chompLine tail) := by
    rw [hbefore]
    exact Fix.preview?_of_columns (by rw [htext]; exact List.cons_ne_nil _ _) hline hcolumn hend
  have hemit := Emitter.emit_of_preview hformat hcolors hreported.origin.2.2
    (by rw [hreported.replacement]; exact List.cons_ne_nil _ _) (by rw [hbefore, htext]; simp)
    hpreview
  rw [Emitter.ShowsFix, hemit, hshown, hcontent', hfixed]

/-- The literal stands at the end of a line, before a carriage return that the line leaves out. -/
theorem previews_show_fixes_line_end :
    let r : Renaming := ⟨ascii "old", ascii "n\rw"⟩
    let s := Source.mk (ascii "a.php") (ascii "<?php\r\n__('a',\r\n\t\"old\"\r\n);")
    let e := (Emitter.new .text false).addContent s.name s.content
    let issues := (r.lint true s.name s.content).1.issues
    Byte.lf ∉ r.new ∧ s.content.length < 2 ^ 32 ∧ issues.length = 1 ∧
      (∀ issue ∈ issues, issue.endLine = issue.line ∧
        ∃ f ∈ r.findings s.lexemes, ∃ t, s.tokens[f.position]? = some t ∧ t.kind = .string ∧
          issue.Locates s t ∧ e.ShowsFix s f.position issue) ∧
      issues.map (fun issue => (e.emit issue.diagnostic).1) =
        [ascii "error[TextDomain.ReplaceDomain]: Text domain \"old\" in function __() should be " ++
          ascii "replaced with \"n\rw\".\n  --> a.php:3:2\n     |\n   3 | \t\"old\"\n" ++
          ascii "     | \t^^^^^\n     |\n  = fix: replace with 'n\rw'\n   3 | \t'n\rw'\n"] := by
  intro r s e issues
  have hlines : ∀ issue ∈ issues, issue.endLine = issue.line := by decide +kernel
  have hshows := previews_show_fixes r (by decide) true s.name s.content (by decide) e rfl rfl rfl
  exact ⟨by decide, by decide, by decide +kernel,
    fun issue hissue => ⟨hlines issue hissue, hshows issue hissue (hlines issue hissue)⟩,
    by decide +kernel⟩

end Renaming

end TextDomain
