import Mathlib.Data.List.Basic
import TextDomain.Options

/-!
# What arguments are taken for

`Options.read` takes every argument for something, which `Options.labelled` writes beside it: for a
path, for the name or the value of a setting, for a logging option or for another option. An
argument other than `--` and `--runtime-set` says all by itself (`Options.heed`), so accepted
arguments are read in steps of one argument, or of three (`Options.read_induction`), and what comes
after them is read on from there (`Options.read_append`).

So a domain can be given in either of two ways at any place where an option is expected, and
everything after `--` is a path (`Options.parse_spellings`).
-/

namespace TextDomain

/-- What an argument is taken for. -/
inductive Role where
  | path
  /-- The name of a setting. -/
  | name
  /-- The value of a setting. -/
  | value
  /-- A logging option, or `--no-color`, which the logger has to heed as well. -/
  | logging
  /-- Any other option, `--` among them. -/
  | option
  deriving DecidableEq, Repr

def Request.role : Request → Role
  | .path => .path
  | .plain => .logging
  | .logging => .logging
  | _ => .option

/-! ## Single arguments -/

namespace Request

variable {arg : Bytes}

/-- What an argument looks like that asks for something. -/
theorem ofArg_cases {motive : Request → Prop} (path : isPathArg arg = true → motive .path)
    (pathsOnly : arg = ascii "--" → motive .pathsOnly) (fix : arg = ascii "--fix" → motive .fix)
    (help : arg = ascii "--help" ∨ arg = ascii "-h" → motive .help)
    (setting : arg = ascii "--runtime-set" → motive .setting)
    (plain : arg = ascii "--no-color" → motive .plain)
    (old : ∀ domain, arg = ascii "--original-text-domain=" ++ domain → motive (.old domain))
    (new : ∀ domain, arg = ascii "--target-text-domain=" ++ domain → motive (.new domain))
    (format : ∀ name, arg = ascii "--format=" ++ name → motive (.format name))
    (logging : (LogOption.ofArg? arg).isSome → motive .logging)
    (unknown : LogOption.ofArg? arg = none → motive .unknown) : motive (ofArg arg) := by
  have hrest : motive ((((Bytes.after? (ascii "--original-text-domain=") arg).map Request.old) <|>
      ((Bytes.after? (ascii "--target-text-domain=") arg).map Request.new) <|>
      ((Bytes.after? (ascii "--format=") arg).map Request.format)).getD
      (if (LogOption.ofArg? arg).isSome then .logging else .unknown)) := by
    cases hold : Bytes.after? (ascii "--original-text-domain=") arg with
    | some domain => exact old domain (Bytes.eq_of_after? hold)
    | none =>
    cases hnew : Bytes.after? (ascii "--target-text-domain=") arg with
    | some domain => exact new domain (Bytes.eq_of_after? hnew)
    | none =>
    cases hformat : Bytes.after? (ascii "--format=") arg with
    | some name => exact format name (Bytes.eq_of_after? hformat)
    | none =>
    cases hlog : LogOption.ofArg? arg with
    | some option => exact logging (by rw [hlog]; rfl)
    | none => exact unknown hlog
  rw [ofArg]
  exact iteInduction path fun _ => iteInduction pathsOnly fun _ => iteInduction fix fun _ =>
    iteInduction help fun _ => iteInduction setting fun _ => iteInduction plain fun _ => hrest

theorem ofArg_eq_pathsOnly_iff : ofArg arg = .pathsOnly ↔ arg = ascii "--" := by
  refine ⟨?_, fun h => h ▸ rfl⟩
  refine ofArg_cases (motive := fun r => r = .pathsOnly → arg = ascii "--")
    ?_ ?_ ?_ ?_ ?_ ?_ ?_ ?_ ?_ ?_ ?_ <;> simp +contextual

theorem ofArg_eq_setting_iff : ofArg arg = .setting ↔ arg = ascii "--runtime-set" := by
  refine ⟨?_, fun h => h ▸ rfl⟩
  refine ofArg_cases (motive := fun r => r = .setting → arg = ascii "--runtime-set")
    ?_ ?_ ?_ ?_ ?_ ?_ ?_ ?_ ?_ ?_ ?_ <;> simp +contextual

end Request

/-! ## Lists of arguments -/

namespace Options

/-- Every argument with what it is taken for. The operands of `--runtime-set` are a name and a
value, and nothing but paths comes after `--`. -/
def labelled : List Bytes → List (Role × Bytes)
  | [] => []
  | arg :: args =>
    match Request.ofArg arg with
    | .pathsOnly => (.option, arg) :: args.map (.path, ·)
    | .setting =>
      match args with
      | name :: value :: args =>
        (.option, arg) :: (.name, name) :: (.value, value) :: labelled args
      -- Without both operands the arguments are not accepted.
      | args => (.option, arg) :: args.map (.name, ·)
    | request => (request.role, arg) :: labelled args

/-- The arguments that are taken for something. -/
def taken (role : Role) (args : List Bytes) : List Bytes :=
  ((labelled args).filter (·.1 == role)).map Prod.snd

theorem labelled_dashes (args : List Bytes) :
    labelled (ascii "--" :: args) = (.option, ascii "--") :: args.map (.path, ·) := rfl

/-- Takes in an argument that says all by itself. -/
def heed (o : Options) (arg : Bytes) : Except OptionError Options :=
  match Request.ofArg arg with
  | .path => .ok { o with paths := o.paths ++ [arg] }
  | .fix => .ok { o with fix := true }
  | .help => .ok { o with help := true }
  | .old domain => .ok { o with old := domain }
  | .new domain => .ok { o with new := domain }
  | .format name => o.setFormat name
  | .plain => .ok { o with colors := false }
  | .logging => .ok o
  | _ => .error (.unknownOption arg)

/-- An argument that does not bear on those after it. -/
def IsComplete (arg : Bytes) : Prop :=
  arg ≠ ascii "--" ∧ arg ≠ ascii "--runtime-set"

section

variable {arg : Bytes} (h : IsComplete arg)
include h

theorem labelled_cons (args : List Bytes) :
    labelled (arg :: args) = ((Request.ofArg arg).role, arg) :: labelled args := by
  have hpaths := mt Request.ofArg_eq_pathsOnly_iff.mp h.1
  have hsetting := mt Request.ofArg_eq_setting_iff.mp h.2
  rw [labelled.eq_def]
  dsimp only
  cases hrequest : Request.ofArg arg with
  | pathsOnly => exact absurd hrequest hpaths
  | setting => exact absurd hrequest hsetting
  | _ => rfl

theorem taken_cons (role : Role) (args : List Bytes) :
    taken role (arg :: args) =
      (if (Request.ofArg arg).role = role then [arg] else []) ++ taken role args := by
  rw [taken, labelled_cons h]
  split_ifs with hrole <;> simp [taken, hrole]

theorem read_cons (o : Options) (args : List Bytes) :
    o.read (arg :: args) = (o.heed arg).bind (·.read args) := by
  have hpaths := mt Request.ofArg_eq_pathsOnly_iff.mp h.1
  have hsetting := mt Request.ofArg_eq_setting_iff.mp h.2
  rw [heed, read.eq_def]
  dsimp only
  cases hrequest : Request.ofArg arg with
  | pathsOnly => exact absurd hrequest hpaths
  | setting => exact absurd hrequest hsetting
  | format name => dsimp only; cases o.setFormat name <;> rfl
  | _ => rfl

end

/-- No argument is left out, whether the arguments are accepted or not. -/
theorem map_snd_labelled : ∀ args : List Bytes, (labelled args).map Prod.snd = args
  | [] => rfl
  | arg :: args => by
    by_cases hdashes : arg = ascii "--"
    · simp [hdashes, labelled_dashes, Function.comp_def]
    by_cases hsetting : arg = ascii "--runtime-set"
    · subst hsetting
      rcases args with _ | ⟨name, _ | ⟨value, args⟩⟩
      · rfl
      · rfl
      · exact congrArg (ascii "--runtime-set" :: name :: value :: ·) (map_snd_labelled args)
    · rw [labelled_cons ⟨hdashes, hsetting⟩, List.map_cons, map_snd_labelled args]

theorem read_setting (o : Options) (name value : Bytes) (args : List Bytes) :
    o.read (ascii "--runtime-set" :: name :: value :: args) =
      (o.set name value).bind (·.read args) := by
  have hrequest : Request.ofArg (ascii "--runtime-set") = .setting := rfl
  rw [read, hrequest]
  dsimp only
  cases o.set name value <;> rfl

theorem paths_heed {o o' : Options} {arg : Bytes} (h : o.heed arg = .ok o') :
    o'.paths = o.paths ++ if (Request.ofArg arg).role = .path then [arg] else [] := by
  rw [heed] at h
  cases hrequest : Request.ofArg arg <;>
    simp only [hrequest, setFormat, Except.ok.injEq, reduceCtorEq] at h
  case format name => split_ifs at h <;> cases h <;> simp [Request.role]
  all_goals simp [← h, Request.role]

theorem set_eq_ok {o o' : Options} {name value : Bytes} (h : o.set name value = .ok o') :
    (name = ascii "originalTextDomain" ∨ name = ascii "targetTextDomain") ∧
      o'.paths = o.paths := by
  unfold set at h
  split_ifs at h with hold hnew
  · cases h
    exact ⟨.inl hold, rfl⟩
  · cases h
    exact ⟨.inr hnew, rfl⟩

/-- Accepted arguments are read one by one but for settings, which take three, until they are
used up or `--` is met. -/
theorem read_induction {motive : List Bytes → Options → Prop} {result : Options}
    (nil : motive [] result)
    (dashes : ∀ args o, result = { o with paths := o.paths ++ args } →
      motive (ascii "--" :: args) o)
    (setting : ∀ name value args o o', o.set name value = .ok o' → motive args o' →
      motive (ascii "--runtime-set" :: name :: value :: args) o)
    (single : ∀ arg args o o', IsComplete arg → o.heed arg = .ok o' → motive args o' →
      motive (arg :: args) o) :
    ∀ {args : List Bytes} {o : Options}, o.read args = .ok result → motive args o
  | [], o, h => by
    obtain rfl := Except.ok.inj h
    exact nil
  | arg :: args, o, h => by
    by_cases hdashes : arg = ascii "--"
    · subst hdashes
      exact dashes args o (Except.ok.inj h).symm
    by_cases hsetting : arg = ascii "--runtime-set"
    · subst hsetting
      rcases args with _ | ⟨name, _ | ⟨value, args⟩⟩
      · cases h
      · cases h
      · rw [read_setting] at h
        cases hset : o.set name value with
        | error e => rw [hset] at h; cases h
        | ok o' =>
          rw [hset] at h
          exact setting name value args o o' hset (read_induction nil dashes setting single h)
    · have harg : IsComplete arg := ⟨hdashes, hsetting⟩
      rw [read_cons harg] at h
      cases hheed : o.heed arg with
      | error e => rw [hheed] at h; cases h
      | ok o' =>
        rw [hheed] at h
        exact single arg args o o' harg hheed (read_induction nil dashes setting single h)

/-- After accepted arguments reading goes on, unless `--` is among them. -/
theorem read_append {pre : List Bytes} {o result : Options} (h : o.read pre = .ok result)
    (hdashes : ascii "--" ∉ pre) (suf : List Bytes) : o.read (pre ++ suf) = result.read suf := by
  revert hdashes
  refine read_induction (motive := fun pre o =>
    ascii "--" ∉ pre → o.read (pre ++ suf) = result.read suf) ?nil ?dashes ?setting ?single h
  case nil => exact fun _ => rfl
  case dashes => exact fun args o _ hdashes => absurd List.mem_cons_self hdashes
  case setting =>
    intro name value args o o' hset ih hdashes
    have hargs : ascii "--" ∉ args := fun hmem => hdashes (by simp [hmem])
    rw [List.cons_append, List.cons_append, List.cons_append, read_setting, hset, ← ih hargs]
    rfl
  case single =>
    intro arg args o o' harg hheed ih hdashes
    have hargs : ascii "--" ∉ args := fun hmem => hdashes (List.mem_cons_of_mem arg hmem)
    rw [List.cons_append, read_cons harg, hheed, ← ih hargs]
    rfl

/-- The paths that are read are the arguments taken for paths. -/
theorem paths_read {args : List Bytes} {o result : Options} (h : o.read args = .ok result) :
    result.paths = o.paths ++ taken .path args := by
  refine read_induction (motive := fun args o => result.paths = o.paths ++ taken .path args)
    ?nil ?dashes ?setting ?single h
  case nil => exact (List.append_nil _).symm
  case dashes =>
    rintro args o rfl
    have htaken : taken .path (ascii "--" :: args) = args := by
      simp [taken, labelled_dashes, List.filter_map, Function.comp_def]
    rw [htaken]
  case setting =>
    intro name value args o o' hset ih
    rw [ih, (set_eq_ok hset).2]
    rfl
  case single =>
    intro arg args o o' harg hheed ih
    rw [ih, paths_heed hheed, taken_cons harg .path, List.append_assoc]

/-! ## Two spellings, and the end of the options -/

/-- The paths to check: those that are given, or else the present folder. -/
def orPresent (paths : List Bytes) : List Bytes :=
  if paths = [] then [ascii "."] else paths

theorem withDefaultPath_eq (o : Options) :
    o.withDefaultPath = { o with paths := orPresent o.paths } := by
  unfold withDefaultPath orPresent
  split_ifs <;> rfl

theorem exists_read_of_parse {args : List Bytes} {o : Options} (h : parse args = .ok o) :
    ∃ read, initial.read args = .ok read ∧ o = read.withDefaultPath := by
  unfold parse at h
  cases hread : initial.read args with
  | error e => rw [hread] at h; cases h
  | ok read => rw [hread] at h; exact ⟨read, rfl, (Except.ok.inj h).symm⟩

/-- Wherever an option is expected, a domain can be given as a setting with two operands or as one
argument, whatever the domain is and whatever follows. After `--` all arguments are paths, which
come after those before it. -/
theorem parse_spellings {pre : List Bytes} {o : Options} (hpre : parse pre = .ok o)
    (hdashes : ascii "--" ∉ pre) :
    (∀ domain suf,
      parse (pre ++ [ascii "--runtime-set", ascii "originalTextDomain", domain] ++ suf) =
        parse (pre ++ [ascii "--original-text-domain=" ++ domain] ++ suf) ∧
      parse (pre ++ [ascii "--runtime-set", ascii "targetTextDomain", domain] ++ suf) =
        parse (pre ++ [ascii "--target-text-domain=" ++ domain] ++ suf)) ∧
    o.paths = orPresent (taken .path pre) ∧
    ∀ suf, parse (pre ++ [ascii "--"] ++ suf) =
      .ok { o with paths := orPresent (taken .path pre ++ suf) } := by
  obtain ⟨read, hread, rfl⟩ := exists_read_of_parse hpre
  have hparse : ∀ args suf, parse (pre ++ args ++ suf) =
      (read.read (args ++ suf)).map withDefaultPath := by
    intro args suf
    rw [parse, List.append_assoc, read_append hread hdashes]
  have hpaths : read.paths = taken .path pre := paths_read hread
  refine ⟨fun domain suf => ⟨?_, ?_⟩, ?_, fun suf => ?_⟩
  · rw [hparse, hparse]
    rfl
  · rw [hparse, hparse]
    rfl
  · rw [withDefaultPath_eq, hpaths]
  · have hsuf : read.read ([ascii "--"] ++ suf) = .ok { read with paths := read.paths ++ suf } :=
      rfl
    rw [hparse, hsuf, withDefaultPath_eq, ← hpaths, Except.map, withDefaultPath_eq]

/-- A domain `--` is one like any other. -/
theorem parse_spellings_dashes :
    let pre := [ascii "src", ascii "--runtime-set", ascii "targetTextDomain", ascii "--fix"]
    let o : Options := ⟨false, false, true, .text, [], ascii "--fix", [ascii "src"]⟩
    parse pre = .ok o ∧ ascii "--" ∉ pre ∧
      parse (pre ++ [ascii "--runtime-set", ascii "originalTextDomain", ascii "--"] ++
        [ascii "-v", ascii "--format=xml"]) =
      parse (pre ++ [ascii "--original-text-domain=" ++ ascii "--"] ++
        [ascii "-v", ascii "--format=xml"]) ∧
      parse (pre ++ [ascii "--"] ++ [ascii "--format=xml", ascii "--"]) =
        .ok { o with paths := [ascii "src", ascii "--format=xml", ascii "--"] } := by
  intro pre o
  have hpre : parse pre = .ok o := by rfl
  have hdashes : ascii "--" ∉ pre := by decide
  obtain ⟨hdomain, -, hsuf⟩ := parse_spellings hpre hdashes
  exact ⟨hpre, hdashes, (hdomain _ _).1, hsuf _⟩

end Options

end TextDomain
