import Mathlib.Data.Set.Basic
import TextDomain.Proofs.CommandLines

/-!
# What the logger hears

The logger reads the same arguments as `Options.read` does, but knows no operands. Of accepted
arguments it hears those that are taken for logging options and, besides them, the values of
settings, which it takes for options or for the end of the options (`Options.ofArgs_heard`). Paths,
names of settings and what follows `--` say nothing to it.

So settings leave the logger alone as long as their values are silent to it (`LogOption.IsSilent`),
and any other value can change what it does (`LogChoices.exists_overridden`).
-/

namespace TextDomain

theorem Request.role_ne_value (r : Request) : r.role ≠ .value := by
  cases r <;> simp [role]

theorem LogOption.ofArg?_of_isPathArg {arg : Bytes} (h : isPathArg arg = true) :
    ofArg? arg = none := by
  simp only [isPathArg, Bool.or_eq_true, bne_iff_ne, beq_iff_eq] at h
  rcases h with h | rfl
  · cases arg with
    | nil => rfl
    | cons c s =>
      have hdash : '-'.toUInt8 = Byte.minus := rfl
      have hc : c ≠ Byte.minus := fun hc => h (congrArg some hc)
      simp [ofArg?, Bytes.after?, ascii, verbosity?, hdash, hc, hc.symm]
  · rfl

/-- What is not taken for a logging option is none for the logger either. -/
theorem Request.ofArg?_of_role_ne {arg : Bytes} (h : (ofArg arg).role ≠ .logging) :
    LogOption.ofArg? arg = none := by
  revert h
  refine ofArg_cases (motive := fun r => r.role ≠ .logging → LogOption.ofArg? arg = none)
    (fun hpath _ => LogOption.ofArg?_of_isPathArg hpath) ?pathsOnly ?fix ?help ?setting
    (fun _ h => absurd rfl h) ?old ?new ?format (fun _ h => absurd rfl h) (fun hnone _ => hnone)
  case pathsOnly => rintro rfl -; rfl
  case fix => rintro rfl -; rfl
  case help => rintro (rfl | rfl) - <;> rfl
  case setting => rintro rfl -; rfl
  case old => rintro domain rfl -; rfl
  case new => rintro domain rfl -; rfl
  case format => rintro name rfl -; rfl

/-! ## What the logger hears -/

/-- The logging options among arguments, as the logger reads them. -/
def LogOption.ofArgs (args : List Bytes) : List LogOption :=
  (args.takeWhile (· != ascii "--")).filterMap ofArg?

theorem LogSetup.ofArgs_eq (args : List Bytes) (environment : Option Bytes) :
    ofArgs args environment =
      ((LogOption.ofArgs args).foldl LogChoices.add .initial).resolve environment := rfl

namespace LogOption

theorem ofArgs_dashes (args : List Bytes) : ofArgs (ascii "--" :: args) = [] := by
  simp [ofArgs]

theorem ofArgs_cons {arg : Bytes} (h : arg ≠ ascii "--") (args : List Bytes) :
    ofArgs (arg :: args) = (ofArg? arg).toList ++ ofArgs args := by
  have hne : (arg != ascii "--") = true := by simpa using h
  rw [ofArgs, List.takeWhile_cons, if_pos hne, List.filterMap_cons]
  cases ofArg? arg <;> rfl

/-- An argument says nothing to the logger. -/
def IsSilent (arg : Bytes) : Prop :=
  arg ≠ ascii "--" ∧ ofArg? arg = none

theorem IsSilent.ofArgs_cons {arg : Bytes} (h : IsSilent arg) (args : List Bytes) :
    ofArgs (arg :: args) = ofArgs args := by
  rw [LogOption.ofArgs_cons h.1, h.2]
  rfl

/-- Arguments that say nothing to the logger can be left out. -/
theorem ofArgs_filter {labels : List (Role × Bytes)} {p : Role × Bytes → Bool}
    (h : ∀ l ∈ labels, p l = false → IsSilent l.2) :
    ofArgs ((labels.filter p).map Prod.snd) = ofArgs (labels.map Prod.snd) := by
  induction labels with
  | nil => rfl
  | cons l labels ih =>
    have ih := ih fun l' hl' => h l' (List.mem_cons_of_mem l hl')
    cases hp : p l with
    | true =>
      rw [List.filter_cons_of_pos hp, List.map_cons, List.map_cons]
      by_cases hdashes : l.2 = ascii "--"
      · rw [hdashes, ofArgs_dashes, ofArgs_dashes]
      · rw [LogOption.ofArgs_cons hdashes, LogOption.ofArgs_cons hdashes, ih]
    | false =>
      have hsilent := h l List.mem_cons_self hp
      rw [List.filter_cons_of_neg (Bool.eq_false_iff.mp hp), List.map_cons, hsilent.ofArgs_cons, ih]

end LogOption

namespace Options

/-- The logging options, and besides them the values of settings. -/
def heard (args : List Bytes) : List Bytes :=
  ((labelled args).filter fun l => l.1 == .value || l.1 == .logging).map Prod.snd

theorem heard_cons {arg : Bytes} (h : IsComplete arg) (args : List Bytes) :
    heard (arg :: args) =
      (if (Request.ofArg arg).role = .logging then [arg] else []) ++ heard args := by
  rw [heard, labelled_cons h]
  split_ifs with hrole <;> simp [heard, hrole, Request.role_ne_value]

theorem isSilent_of_set {o o' : Options} {name value : Bytes} (h : o.set name value = .ok o') :
    LogOption.IsSilent name := by
  obtain ⟨rfl | rfl, -⟩ := set_eq_ok h <;> exact ⟨by decide, rfl⟩

/-- Of accepted arguments the logger hears the logging options and the values, nothing else. -/
theorem ofArgs_heard {args : List Bytes} {o result : Options} (h : o.read args = .ok result) :
    LogOption.ofArgs args = LogOption.ofArgs (heard args) := by
  refine read_induction (motive := fun args _ =>
    LogOption.ofArgs args = LogOption.ofArgs (heard args)) ?nil ?dashes ?setting ?single h
  case nil => rfl
  case dashes =>
    intro args o _
    have hheard : heard (ascii "--" :: args) = [] := by
      simp [heard, labelled_dashes]
    rw [hheard, LogOption.ofArgs_dashes]
    rfl
  case setting =>
    intro name value args o o' hset ih
    have hsetting : LogOption.IsSilent (ascii "--runtime-set") := ⟨by decide, rfl⟩
    have hheard : heard (ascii "--runtime-set" :: name :: value :: args) = value :: heard args :=
      rfl
    rw [hsetting.ofArgs_cons, (isSilent_of_set hset).ofArgs_cons, hheard]
    -- The value alone may end what the logger reads.
    by_cases hvalue : value = ascii "--"
    · rw [hvalue, LogOption.ofArgs_dashes, LogOption.ofArgs_dashes]
    · rw [LogOption.ofArgs_cons hvalue, LogOption.ofArgs_cons hvalue, ih]
  case single =>
    intro arg args o o' harg _ ih
    rw [heard_cons harg]
    split_ifs with hrole
    · rw [List.singleton_append, LogOption.ofArgs_cons harg.1, LogOption.ofArgs_cons harg.1, ih]
    · have hsilent : LogOption.IsSilent arg := ⟨harg.1, Request.ofArg?_of_role_ne hrole⟩
      rw [hsilent.ofArgs_cons, ih, List.nil_append]

/-- If no value says anything to the logger, only the logging options are heard. -/
theorem ofArgs_heard_of_silent {args : List Bytes}
    (h : ∀ value ∈ taken .value args, LogOption.IsSilent value) :
    LogOption.ofArgs (heard args) = LogOption.ofArgs (taken .logging args) := by
  have htaken : taken .logging args = (((labelled args).filter fun l =>
      l.1 == .value || l.1 == .logging).filter (·.1 == .logging)).map Prod.snd := by
    rw [List.filter_filter, taken]
    congr 2
    funext l
    cases l.1 <;> rfl
  rw [htaken, LogOption.ofArgs_filter, heard]
  intro l hl hlogging
  obtain ⟨hmem, hrole⟩ := List.mem_filter.mp hl
  rw [hlogging, Bool.or_false] at hrole
  exact h l.2 (List.mem_map_of_mem (List.mem_filter.mpr ⟨hmem, hrole⟩))

theorem heard_sublist (args : List Bytes) : (heard args).Sublist args := by
  have hsub : (heard args).Sublist ((labelled args).map Prod.snd) :=
    List.filter_sublist.map Prod.snd
  rwa [map_snd_labelled] at hsub

end Options

/-! ## Values that are heard -/

theorem verbosity?_ne_some_zero (arg : Bytes) : verbosity? arg ≠ some 0 := by
  cases arg with
  | nil => simp [verbosity?]
  | cons c s => simp +contextual [verbosity?]

theorem LogOption.ofArg?_ne_verbose_zero (arg : Bytes) : ofArg? arg ≠ some (.verbose 0) := by
  simp [ofArg?, verbosity?_ne_some_zero]

namespace LogChoices

/-- Every logging option makes a difference after some other one. -/
theorem exists_overridden {option : LogOption} (h : option ≠ .verbose 0) :
    ∃ arg first, Request.ofArg arg = .logging ∧ LogOption.ofArg? arg = some first ∧
      ((initial.add first).add option).resolve none ≠ (initial.add first).resolve none := by
  cases option with
  | level word =>
    by_cases hword : Level.ofWord word = .error
    · refine ⟨ascii "--log-level=trace", .level (ascii "trace"), rfl, rfl, fun heq => ?_⟩
      have hlevel : Level.ofWord word = Level.ofWord (ascii "trace") := congrArg LogSetup.level heq
      rw [hword] at hlevel
      revert hlevel
      decide
    · refine ⟨ascii "-q", .quiet, rfl, rfl, fun heq => hword ?_⟩
      exact congrArg LogSetup.level heq
  | filter spec =>
    refine ⟨ascii "--log-filter=" ++ 0 :: spec, .filter (0 :: spec), rfl, rfl, fun heq => ?_⟩
    exact List.cons_ne_self _ _ (congrArg LogSetup.filter heq).symm
  | file path =>
    refine ⟨ascii "--log-file=" ++ 0 :: path, .file (0 :: path), rfl, rfl, fun heq => ?_⟩
    exact List.cons_ne_self _ _ (congrArg LogSetup.file heq).symm
  | format word =>
    by_cases hword : word = ascii "json" ∨ word = ascii "JSON"
    · refine ⟨ascii "--log-format=text", .format (ascii "text"), rfl, rfl, fun heq => ?_⟩
      have hformat := congrArg LogSetup.format heq
      simp only [add, if_pos hword] at hformat
      cases hformat
    · refine ⟨ascii "--log-format=json", .format (ascii "json"), rfl, rfl, fun heq => ?_⟩
      have hformat := congrArg LogSetup.format heq
      simp only [add, if_neg hword] at hformat
      cases hformat
  | quiet =>
    exact ⟨ascii "--log-level=trace", .level (ascii "trace"), rfl, rfl, by decide⟩
  | plain => exact ⟨ascii "-q", .quiet, rfl, rfl, by decide⟩
  | verbose count =>
    refine ⟨ascii "--log-format=text", .format (ascii "text"), rfl, rfl, ?_⟩
    match count with
    | 0 => exact absurd rfl h
    | 1 => decide
    | 2 => decide
    | _ + 3 =>
      intro heq
      have hlevel : Level.trace = Level.warn := congrArg LogSetup.level heq
      exact absurd hlevel (by decide)

end LogChoices

namespace Options

/-- The value of a setting can be heard by the logger unless it says nothing to it. -/
theorem exists_heard_value {value : Bytes} (h : ¬ LogOption.IsSilent value) :
    ∃ args o, parse args = .ok o ∧ taken .value args = [value] ∧
      LogSetup.ofArgs args none ≠ LogSetup.ofArgs (taken .logging args) none := by
  by_cases hdashes : value = ascii "--"
  · subst hdashes
    exact ⟨[ascii "--runtime-set", ascii "originalTextDomain", ascii "--", ascii "-q"], _, rfl, rfl,
      by decide⟩
  · obtain ⟨option, hoption⟩ := Option.ne_none_iff_exists'.mp fun hnone => h ⟨hdashes, hnone⟩
    obtain ⟨arg, first, hrequest, hfirst, hne⟩ :=
      LogChoices.exists_overridden fun h0 => LogOption.ofArg?_ne_verbose_zero value (h0 ▸ hoption)
    have harg : IsComplete arg := by
      constructor <;> rintro rfl <;> cases hrequest
    have hheed : initial.heed arg = .ok initial := by rw [heed, hrequest]
    let args := [arg, ascii "--runtime-set", ascii "originalTextDomain", value]
    have hlabelled : labelled args = [(.logging, arg), (.option, ascii "--runtime-set"),
        (.name, ascii "originalTextDomain"), (.value, value)] := by
      rw [labelled_cons harg, hrequest]
      rfl
    have hparse : parse args = .ok { initial with old := value, paths := [ascii "."] } := by
      rw [parse, read_cons harg, hheed]
      rfl
    have hheard : LogOption.ofArgs (heard args) = [first, option] := by
      rw [heard, hlabelled]
      change LogOption.ofArgs [arg, value] = _
      rw [LogOption.ofArgs_cons harg.1, LogOption.ofArgs_cons hdashes, hfirst, hoption]
      rfl
    have hlogging : LogOption.ofArgs (taken .logging args) = [first] := by
      rw [taken, hlabelled]
      change LogOption.ofArgs [arg] = _
      rw [LogOption.ofArgs_cons harg.1, hfirst]
      rfl
    refine ⟨args, _, hparse, ?_, ?_⟩
    · rw [taken, hlabelled]
      rfl
    · obtain ⟨_, hread, -⟩ := exists_read_of_parse hparse
      rw [LogSetup.ofArgs_eq, LogSetup.ofArgs_eq, ofArgs_heard hread, hheard, hlogging]
      exact hne

end Options

namespace LogSetup

/-- Of accepted arguments the logger hears those taken for logging options, and the values of
settings as if they were options. So whatever the arguments are, as long as their values are among
some given ones, only the logging options are heard: exactly if all of these values are silent,
which is to be no logging option and not `--`. -/
theorem ofArgs_hears_values (values : Set Bytes) :
    (∀ args o environment, Options.parse args = .ok o →
      (Options.heard args).Sublist args ∧
      ofArgs args environment = ofArgs (Options.heard args) environment) ∧
    ((∀ args o environment, Options.parse args = .ok o →
        (∀ value ∈ Options.taken .value args, value ∈ values) →
        ofArgs args environment = ofArgs (Options.taken .logging args) environment) ↔
      ∀ value ∈ values, value ≠ ascii "--" ∧ LogOption.ofArg? value = none) := by
  have hheard : ∀ {args o}, Options.parse args = .ok o →
      LogOption.ofArgs args = LogOption.ofArgs (Options.heard args) := by
    intro args o hparse
    obtain ⟨read, hread, -⟩ := Options.exists_read_of_parse hparse
    exact Options.ofArgs_heard hread
  refine ⟨fun args o environment hparse => ⟨Options.heard_sublist args, ?_⟩,
    fun hall value hvalue => ?_, fun hsilent args o environment hparse hvalues => ?_⟩
  · rw [ofArgs_eq, ofArgs_eq, hheard hparse]
  · by_contra hloud
    obtain ⟨args, o, hparse, htaken, hne⟩ := Options.exists_heard_value hloud
    refine hne (hall args o none hparse fun value' hvalue' => ?_)
    rw [htaken, List.mem_singleton] at hvalue'
    rwa [hvalue']
  · have htaken := Options.ofArgs_heard_of_silent fun value hvalue =>
      hsilent value (hvalues value hvalue)
    rw [ofArgs_eq, ofArgs_eq, hheard hparse, htaken]

/-- The value `-q` of a setting makes the logger quiet, and a value `--` keeps it from being so. -/
theorem ofArgs_hears_quiet_value :
    let args := [ascii "--runtime-set", ascii "originalTextDomain", ascii "-q"]
    let args' := [ascii "--runtime-set", ascii "originalTextDomain", ascii "--", ascii "-q"]
    (∃ o, Options.parse args = .ok o) ∧ Options.taken .logging args = [] ∧
      (ofArgs args none).level = .error ∧ (ofArgs [] none).level = .warn ∧
    (∃ o, Options.parse args' = .ok o) ∧ Options.taken .logging args' = [ascii "-q"] ∧
      (ofArgs args' none).level = .warn ∧ (ofArgs [ascii "-q"] none).level = .error := by
  intro args args'
  obtain ⟨o, ho⟩ : ∃ o, Options.parse args = .ok o := ⟨_, rfl⟩
  obtain ⟨o', ho'⟩ : ∃ o, Options.parse args' = .ok o := ⟨_, rfl⟩
  obtain ⟨hheard, -⟩ := ofArgs_hears_values {ascii "-q", ascii "--"}
  have hargs := (hheard args o none ho).2
  have hargs' := (hheard args' o' none ho').2
  refine ⟨⟨o, ho⟩, rfl, ?_, rfl, ⟨o', ho'⟩, rfl, ?_, rfl⟩
  · rw [hargs]
    rfl
  · rw [hargs']
    rfl

end LogSetup

end TextDomain
