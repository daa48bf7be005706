import TextDomain.Issue
import TextDomain.Renaming
import TextDomain.Splice
import TextDomain.Token.Stream

/-!
# Drafts

A `Draft` is a source that is being checked: its tokens, the issues reported so far and, for every
token, the text that is to replace it. Reporting past the last token is noted in the log and changes
nothing else. A replacement also goes on record with the last issue reported for the same token, and
a later replacement of a token takes the place of an earlier one. `Draft.content` is the source with
every replacement made.
-/

namespace TextDomain

/-- An issue and the position of the token it is about. -/
structure Complaint where
  position : Nat
  issue : Issue
  deriving DecidableEq, Repr

/-- A source under check. -/
structure Draft where
  source : Source
  /-- Where the lines of the source start. -/
  lineStarts : List Nat
  tokens : Array Token
  /-- Whether rules are told to fix what they report. -/
  accepting : Bool
  /-- The rule that reports, first part of the issue codes. -/
  rule : Bytes
  /-- The issues, the latest first. -/
  complaints : List Complaint
  /-- The replacement of each token, if it has one. -/
  marks : Array (Option Bytes)
  /-- What there is to log, in order. -/
  events : List Event
  deriving Repr

/-- Puts a replacement on record with the first complaint about a position. -/
def recordReplacement (position : Nat) (text : Bytes) : List Complaint → List Complaint
  | [] => []
  | c :: cs =>
    if c.position = position then { c with issue := { c.issue with replacement := text } } :: cs
    else c :: recordReplacement position text cs

namespace Draft

/-- A draft with nothing reported yet. -/
def ofSource (source : Source) (accepting : Bool) (rule : Bytes) : Draft :=
  let tokens := source.tokens.toArray
  { source, tokens, accepting, rule
    lineStarts := source.lineStarts
    complaints := []
    marks := Array.replicate tokens.size none
    events := [] }

/-- The issues in the order of their reports. -/
def issues (d : Draft) : List Issue :=
  d.complaints.reverse.map Complaint.issue

def lexemes (d : Draft) : List Lexeme :=
  d.tokens.toList.map Token.toLexeme

/-- The issue that a report about a token makes. Its line and column are looked up again, from the
offset in the span. -/
def issueAt (d : Draft) (token : Token) (message code : Bytes) : Issue :=
  let span := token.span d.source.name d.lineStarts
  let start := locate d.lineStarts span.start.offset.toNat
  { file := span.file
    line := start.line
    column := start.column
    length := span.start.length
    endLine := span.stop.line
    endColumn := span.stop.column
    code := d.rule ++ [Byte.dot] ++ code
    message := message
    fixable := true
    replacement := [] }

/-- Reports an issue with a token. -/
def report (position : Nat) (message code : Bytes) (d : Draft) : Bool × Draft :=
  match d.tokens[position]? with
  | some token =>
    (d.accepting,
      { d with complaints := ⟨position, d.issueAt token message code⟩ :: d.complaints })
  | none =>
    (false,
      { d with
        events := d.events ++
          [.of .warn "lint" (ascii "Issue reported past the end of " ++ d.source.name)] })

/-- Marks a token for replacement. -/
def replace (position : Nat) (text : Bytes) (d : Draft) : Draft :=
  if position < d.tokens.size then
    { d with
      complaints := recordReplacement position text d.complaints
      marks := d.marks.setIfInBounds position (some text) }
  else d

@[simp] theorem tokens_report (position : Nat) (message code : Bytes) (d : Draft) :
    (d.report position message code).2.tokens = d.tokens := by
  unfold report
  split <;> rfl

@[simp] theorem tokens_replace (position : Nat) (text : Bytes) (d : Draft) :
    (d.replace position text).tokens = d.tokens := by
  unfold replace
  split <;> rfl

@[simp] theorem marks_report (position : Nat) (message code : Bytes) (d : Draft) :
    (d.report position message code).2.marks = d.marks := by
  unfold report
  split <;> rfl

instance : Host Draft where
  tokens := lexemes
  report := report
  replace := replace

/-- Runs a renaming over a draft. -/
def rename (r : Renaming) (d : Draft) : Draft :=
  r.reportTo { d with events := d.events ++ (r.findings d.lexemes).map Finding.event }

/-- How many tokens are marked for replacement. -/
def editCount (d : Draft) : Nat :=
  d.marks.countP Option.isSome

/-- The marked tokens as edits of the source. -/
def edits (d : Draft) : List Edit :=
  (d.tokens.toList.zip d.marks.toList).filterMap fun (token, mark) =>
    mark.map fun text => ⟨token.offset, token.text.length, text⟩

/-- The source with every replacement made. -/
def content (d : Draft) : Bytes :=
  splice 0 d.source.content d.edits

/-- One call on a draft. -/
inductive Op where
  | report (position : Nat) (message code : Bytes)
  | replace (position : Nat) (text : Bytes)
  | rename (rule : Renaming)
  deriving DecidableEq, Repr

/-- Makes a call, and answers what a report answers. -/
def perform (d : Draft) : Op → Option Bool × Draft
  | .report position message code =>
    let (answer, d) := d.report position message code
    (some answer, d)
  | .replace position text => (none, d.replace position text)
  | .rename rule => (none, d.rename rule)

end Draft

end TextDomain
