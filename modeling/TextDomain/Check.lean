import TextDomain.Check.Collection
import TextDomain.Check.File
import TextDomain.Check.Tally
import TextDomain.Options
import TextDomain.Session

/-!
# Checking files

`Session.check` checks all files that the paths of some `Options` stand for, one after the other. It
writes out diagnostics, or when fixing a line for every file that was fixed or given up, and then a
summary. A file that cannot be dealt with does not keep the others from being checked.
-/

namespace TextDomain

/-- The line about a file that was fixed or could not be; nothing for any other. -/
def Report.outcome (r : Report) (format : ReportFormat) (colors : Bool) : Bytes :=
  if !r.gaveUp && !r.changed then [] else
  match format with
  | .json =>
    Json.object [Json.field "file" (Json.string r.path),
      Json.field "fixed" (decimal r.fixCount),
      Json.field "failed" (ascii (if r.gaveUp then "true" else "false"))] ++ [Byte.lf]
  | .text =>
    if r.gaveUp then
      ascii "  " ++ Style.red.when colors ++ ascii "[FAILED]" ++ Style.reset.when colors ++
        ascii " " ++ r.path ++ [Byte.lf]
    else
      ascii "  " ++ Style.green.when colors ++ ascii "[FIXED]" ++ Style.reset.when colors ++
        ascii " " ++ r.path ++ ascii " (" ++ decimal r.fixCount ++ ascii ")" ++ [Byte.lf]

/-- The lines about the issues of a file. -/
def Report.diagnostics (r : Report) (format : ReportFormat) (colors : Bool) : Bytes :=
  let emitter := (Emitter.new format colors).addContent r.path r.content
  r.issues.flatMap fun issue => emitter.render issue.diagnostic

/-- What is said about a renaming that cannot do anything. -/
def Renaming.warnings (r : Renaming) : List Event :=
  if !r.isEffective then
    [.of .warn "lint" (ascii "No target text domain set (--target-text-domain), " ++
      ascii "nothing will be reported")]
  else if r.old = r.new then
    [.of .warn "lint" (ascii "Original and target text domain are both \"" ++ r.new ++
      ascii "\", issues will be reported but fixes change nothing")]
  else []

namespace Session

/-- Checks one file and writes out what was found. -/
def checkFile (s : Session) (o : Options) (fix colors : Bool) (path : Bytes) :
    Session × Except FileError Report :=
  let s := s.log (.of .debug "lint" (ascii "Checking: " ++ path))
  let outcome := o.toRenaming.lintOnDisk fix s.world.tree path
  let s := { s with world := { s.world with tree := outcome.tree } }.logAll outcome.events
  match outcome.result with
  | .error e => (s.log (.of .error "lint" e.message), .error e)
  | .ok report =>
    let text := if fix then report.outcome o.format colors else report.diagnostics o.format colors
    (s.print text, .ok report)

/-- Checks files one after the other. Answers the tally, and whether every file could be dealt
with. -/
def checkFiles (o : Options) (fix colors : Bool) :
    List Bytes → Session → Tally → Session × Tally × Bool
  | [], s, tally => (s, tally, true)
  | path :: paths, s, tally =>
    match s.checkFile o fix colors path with
    | (s, .error _) =>
      let (s, tally, _) := checkFiles o fix colors paths s tally
      (s, tally, false)
    | (s, .ok report) => checkFiles o fix colors paths s (tally.add report fix)

/-- Checks all files that the paths of `o` stand for, and fixes them if `fix` says so. -/
def check (s : Session) (o : Options) (fix : Bool) : Session × Exit :=
  let collection := s.world.tree.collect o.paths
  let colors := o.colors && s.world.terminal.reportColors
  let s := (s.logAll o.toRenaming.warnings).logAll collection.events
  let s := s.log (.of .info "lint" (ascii (if fix then "Fixing " else "Checking ") ++
    decimal collection.files.length ++ ascii " file(s)"))
  let (s, tally, complete) := checkFiles o fix colors collection.files s {}
  let s :=
    match o.format with
    | .text => s.print (tally.summary fix ++ [Byte.lf])
    | .json => s.log (.of .info "lint" (tally.summary fix))
  let found := if fix then tally.gaveUp > 0 else tally.errors > 0
  (s, if !(collection.complete && complete) then .trouble else if found then .issues else .clean)

end Session

end TextDomain
