import TextDomain.Decimal
import TextDomain.Diagnostic.Excerpt
import TextDomain.Terminal

/-!
# Diagnostics as text

A diagnostic in text has a header, a snippet of the source with carets under the span, and a preview
of each fix:

    error[TextDomain.ReplaceDomain]: Text domain "old" in function __() should ...
      --> includes/admin.php:12:26
         |
      12 |     echo __( 'Settings', 'old' );
         |                          ^^^^^
         |
      = fix: replace with 'new'
      12 |     echo __( 'Settings', 'new' );

Where the source line is empty or unknown, only the place is given.
-/

namespace TextDomain

/-- Line numbers are written at least this wide. -/
def lineNumberWidth : Nat := 4

/-- The first line of a diagnostic. -/
def Diagnostic.header (d : Diagnostic) (colors : Bool) : Bytes :=
  Style.bold.when colors ++ Style.brightRed.when colors ++ ascii "error" ++
    (if d.code = [] then [] else ascii "[" ++ d.code ++ ascii "]") ++
    Style.reset.when colors ++ Style.bold.when colors ++ ascii ": " ++ d.message ++
    Style.reset.when colors ++ [Byte.lf]

/-- The place of a span. -/
def Span.place (s : Span) (colors : Bool) : Bytes :=
  Style.brightBlue.when colors ++ ascii "  --> " ++ Style.reset.when colors ++ s.file ++
    ascii ":" ++ decimal s.start.line.toNat ++ ascii ":" ++ decimal s.start.column.toNat ++
    [Byte.lf]

/-- A label at the left margin and the bar after it. -/
def margin (colors : Bool) (width : Nat) (label bar : Bytes) : Bytes :=
  Style.brightBlue.when colors ++ padLeft Byte.space width label ++ bar ++ Style.reset.when colors

/-- The carets under a line, with the space before them. -/
def Span.underline (s : Span) (colors : Bool) (line : Bytes) : Bytes :=
  gutterSpace line s.indent.toNat ++ Style.brightRed.when colors ++ carets s line ++
    Style.reset.when colors

/-- The source line of a span with carets under it. -/
def Span.snippet (s : Span) (colors : Bool) (line : Bytes) : Bytes :=
  let number := decimal s.start.line.toNat
  let width := max number.length lineNumberWidth
  margin colors width [] (ascii " |") ++ [Byte.lf] ++
    margin colors width number (ascii " | ") ++ line ++ [Byte.lf] ++
    margin colors width [] (ascii " | ") ++ s.underline colors line ++ [Byte.lf] ++
    margin colors width [] (ascii " |") ++ [Byte.lf]

/-- The description of a fix and the source line after it. -/
def Fix.text (f : Fix) (colors : Bool) (line : Bytes) : Bytes :=
  Style.brightGreen.when colors ++ ascii "  = fix" ++ Style.reset.when colors ++ ascii ": " ++
    f.description ++ [Byte.lf] ++
    match f.preview? line with
    | none => []
    | some (before, replacement, after) =>
      margin colors lineNumberWidth (decimal f.span.start.line.toNat) (ascii " | ") ++ before ++
        Style.brightGreen.when colors ++ replacement ++ Style.reset.when colors ++ after ++
        [Byte.lf]

/-- A diagnostic in text; `lookup` gives the line of a file that a span starts on. -/
def Diagnostic.text (d : Diagnostic) (colors : Bool) (lookup : Span → Bytes) : Bytes :=
  let line := lookup d.span
  d.header colors ++ d.span.place colors ++
    (if line = [] then [] else d.span.snippet colors line) ++
    d.fixes.flatMap fun f => f.text colors (lookup f.span)

end TextDomain
