import TextDomain.Diagnostic.Basic
import TextDomain.Json

/-!
# Diagnostics as JSON lines

For editors and other tools a diagnostic is one line that holds one JSON object.
-/

namespace TextDomain

/-- A place as a JSON object. -/
def Location.json (l : Location) : Bytes :=
  Json.object [Json.field "line" (decimal l.line.toNat),
    Json.field "column" (decimal l.column.toNat)]

/-- A span as a JSON object. -/
def Span.json (s : Span) : Bytes :=
  Json.object [Json.field "file" (Json.string s.file), Json.field "start" s.start.json,
    Json.field "end" s.stop.json]

/-- A fix as a JSON object. -/
def Fix.json (f : Fix) : Bytes :=
  Json.object [Json.field "description" (Json.string f.description),
    Json.field "replacement" (Json.string f.replacement), Json.field "span" f.span.json]

/-- A diagnostic as a JSON object. -/
def Diagnostic.json (d : Diagnostic) : Bytes :=
  Json.object [Json.field "severity" (Json.string (ascii "error")),
    Json.field "code" (Json.string d.code), Json.field "message" (Json.string d.message),
    Json.field "span" d.span.json, Json.field "fixes" (Json.array (d.fixes.map Fix.json))]

/-- A diagnostic as a line of JSON. -/
def Diagnostic.jsonLine (d : Diagnostic) : Bytes :=
  d.json ++ [Byte.lf]

end TextDomain
