import TextDomain.Issue

/-!
# Diagnostics

A `Diagnostic` is an issue as it is shown: what is wrong, with which stretch of text, and how it can
be fixed. `Issue.diagnostic` makes one from an issue; an issue without a replacement has no fix.
-/

namespace TextDomain

/-- A text to put in place of a stretch of the file. -/
structure Fix where
  span : Span
  replacement : Bytes
  description : Bytes
  deriving DecidableEq, Inhabited, Repr

/-- A complaint, ready to be shown. -/
structure Diagnostic where
  code : Bytes
  message : Bytes
  span : Span
  fixes : List Fix
  deriving DecidableEq, Inhabited, Repr

/-- The stretch of text an issue is about. Its offsets are not known. -/
def Issue.span (i : Issue) : Span where
  file := i.file
  start := ⟨i.line, i.column, 0, i.length⟩
  stop := ⟨i.endLine, i.endColumn, 0, 0⟩

/-- The fix for an issue, if it has one. -/
def Issue.fix? (i : Issue) : Option Fix :=
  if i.fixable ∧ i.replacement ≠ [] then
    some ⟨i.span, i.replacement, ascii "replace with " ++ i.replacement⟩
  else none

/-- An issue, ready to be shown. -/
def Issue.diagnostic (i : Issue) : Diagnostic :=
  ⟨i.code, i.message, i.span, i.fix?.toList⟩

end TextDomain
