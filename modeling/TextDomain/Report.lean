import TextDomain.Draft

/-!
# Checking and fixing one file

`Renaming.lint` checks a content and, when asked to, fixes it. A fix may bring new matches to
light or hide old ones, so fixing is repeated on its own result until nothing changes any more
(`Renaming.settle`). A content that still changes after `maxPasses` passes is given up. The issues
of a `Report` are those of the content as it was read.
-/

namespace TextDomain

/-- What came of checking one file. -/
structure Report where
  path : Bytes
  /-- The content as read. -/
  content : Bytes
  /-- The issues of the content as read. -/
  issues : List Issue
  /-- The content after fixing. -/
  after : Bytes
  fixCount : Nat
  passes : Nat
  /-- Fixing did not come to an end. -/
  gaveUp : Bool
  deriving DecidableEq, Repr

/-- Fixing came to an end with another content. -/
def Report.changed (r : Report) : Bool :=
  !r.gaveUp && r.after != r.content

/-- How often a content is fixed before it is given up. -/
def maxPasses : Nat := 50

/-- The warning about an unfinished text. -/
def LexError.event (source : Source) (e : LexError) : Event :=
  let start := source.location e.offset
  .of .warn "lint" (source.name ++ ascii ":" ++ decimal start.line.toNat ++ ascii ":" ++
    decimal start.column.toNat ++ ascii ": " ++ e.fault.code ++ ascii " " ++ e.fault.message)

/-- Where fixing ended. -/
structure Settled where
  content : Bytes
  fixCount : Nat
  passes : Nat
  failed : Bool
  deriving DecidableEq, Repr

namespace Renaming

/-- One pass over a content. -/
def pass (r : Renaming) (path content : Bytes) : Draft :=
  (Draft.ofSource ⟨path, content⟩ true ruleName).rename r

/-- The content after one pass. It does not depend on the file's name. -/
def revise (r : Renaming) (content : Bytes) : Bytes :=
  (r.pass [] content).content

/-- Repeats passes, `left` of them at most, until one changes nothing. `done` passes with `applied`
replacements have led to `content`. -/
def settle (r : Renaming) (path : Bytes) :
    (left done applied : Nat) → (content : Bytes) → Settled × List Event
  | 0, done, applied, content =>
    (⟨content, applied, done, true⟩,
      [.of .error "fix" (path ++ ascii ": content still changing after " ++ decimal done ++
        ascii " passes, giving up")])
  | left + 1, done, applied, content =>
    let draft := r.pass path content
    let next := draft.content
    if next = content then (⟨content, applied, done + 1, false⟩, draft.events)
    else
      let count := draft.editCount
      let (settled, events) := r.settle path left (done + 1) (applied + count) next
      (settled, draft.events ++
        .of .debug "fix" (path ++ ascii ": pass " ++ decimal (done + 1) ++ ascii " applied " ++
          decimal count ++ ascii " replacement(s)") :: events)

/-- Checks a content, and fixes it if `fix` says so. -/
def lint (r : Renaming) (fix : Bool) (path content : Bytes) : Report × List Event :=
  let source : Source := ⟨path, content⟩
  let warnings := source.errors.map (LexError.event source)
  let draft := r.pass path content
  if fix then
    let (settled, events) := r.settle path maxPasses 0 0 content
    ({ path, content
       issues := draft.issues
       after := settled.content
       fixCount := settled.fixCount
       passes := settled.passes
       gaveUp := settled.failed },
      warnings ++ events)
  else
    ({ path, content
       issues := draft.issues
       after := content
       fixCount := 0
       passes := 1
       gaveUp := false },
      warnings ++ draft.events)

end Renaming

end TextDomain
