import Mathlib.Data.List.Induction
import Mathlib.Order.Bounds.Defs
import Mathlib.Order.MinMax
import TextDomain.Proofs.Logging

/-!
# What a filter lets through

A specification is cut at its commas, and each segment sets at most one level (`Filter.setting?`):
of the part with the name before the first equals sign, or of all parts without a name if that name
is a star. `Filter.set?` looks for the last segment that sets a level. A filter that takes in the
specification gives each part the level found there, or else the one set for all others
(`Filter.levelOf_parse`).

The logger has a level of its own, which is compared first. After a filter is set it is the least
of all levels in the filter (`Filter.isLeast_minLevel`), so it turns down nothing that the filter
lets through. Whatever is asked of a logger, its own level stays at or below the level of the parts
without a name (`Session.sound_run`).
-/

namespace TextDomain

namespace Level

instance : LinearOrder Level where
  le_refl a := Int.le_refl a.rank
  le_trans _ _ _ := Int.le_trans
  lt_iff_le_not_ge _ _ := Int.lt_iff_le_and_not_ge
  le_antisymm a b h h' := by
    obtain ⟨rank⟩ := a
    obtain ⟨rank'⟩ := b
    exact congrArg mk (Int.le_antisymm h h')
  le_total a b := Int.le_total a.rank b.rank
  toDecidableLE := inferInstance
  toMin := inferInstance
  min_def _ _ := rfl

/-- When the lower of two levels, the second of which may be given, is the given one or else the
first. -/
theorem forall_min_le_iff (given : Option Level) (a b : Level) :
    (∀ level, min a (given.getD b) ≤ level ↔ given.getD a ≤ level) ↔
      given.elim (a ≤ b) (· ≤ a) := by
  have heq : (∀ level, min a (given.getD b) ≤ level ↔ given.getD a ≤ level) ↔
      min a (given.getD b) = given.getD a :=
    ⟨eq_of_forall_ge_iff, fun h level => by rw [h]⟩
  rw [heq]
  cases given with
  | none => exact min_eq_left_iff
  | some level => exact min_eq_right_iff

end Level

theorem Bytes.splitAt_eq_splitOn (sep : UInt8) (s : Bytes) :
    Bytes.splitAt sep s = s.splitOn sep := by
  induction s with
  | nil => rfl
  | cons c s ih =>
    rw [Bytes.splitAt, List.splitOn_cons_eq_if_modifyHead, ← ih]
    by_cases hc : c = sep
    · simp [hc]
    · obtain ⟨part, parts, hparts⟩ := List.exists_cons_of_ne_nil (Bytes.splitAt_ne_nil sep s)
      simp [hc, hparts]

namespace Filter

/-! ## Specifications -/

/-- What a segment of a specification sets, a part by its name or all that have none, and to which
level. -/
def setting? (segment : Bytes) : Option (Option Bytes × Level) :=
  if Byte.equals ∈ segment then
    let i := segment.idxOf Byte.equals
    let name := segment.take i
    some (if name = [Byte.star] then none else some name, .ofWord (segment.drop (i + 1)))
  else if segment = [] then none
  else some (some segment, .trace)

/-- The level that a specification sets for a part or, without a name, for all others. The last
segment that sets it wins. -/
def set? (spec : Bytes) (target : Option Bytes) : Option Level :=
  ((spec.splitOn Byte.comma).filterMap setting?).reverse.lookup target

/-- Sets the level of a part, or of all others. -/
def assign (f : Filter) : Option Bytes × Level → Filter
  | (none, level) => f.setFallback level
  | (some name, level) => f.setModule name level

/-- The level that a filter gives to a name or, without a name, to all others. -/
def get? (f : Filter) : Option Bytes → Option Level
  | none => some f.fallback
  | some name => f.modules.lookup name

/-- An entry does what its setting says. -/
theorem addEntry_eq (f : Filter) (entry : Bytes) :
    f.addEntry entry = (setting? entry).elim f f.assign := by
  have hpred : (fun c => !(c != Byte.equals)) = (· == Byte.equals) := by
    funext c
    exact Bool.not_not _
  have htake : entry.takeWhile (· != Byte.equals) = entry.take (entry.idxOf Byte.equals) := by
    rw [List.takeWhile_eq_take_findIdx_not, hpred, List.idxOf]
  have hdrop : entry.dropWhile (· != Byte.equals) = entry.drop (entry.idxOf Byte.equals) := by
    rw [List.dropWhile_eq_drop_findIdx_not, hpred, List.idxOf]
  rw [addEntry, htake, hdrop, setting?]
  by_cases hmem : Byte.equals ∈ entry
  · have hlt := List.idxOf_lt_length_iff.mpr hmem
    rw [List.drop_eq_getElem_cons hlt, if_pos hmem]
    dsimp only [Option.elim]
    split <;> rfl
  · rw [List.idxOf_eq_length hmem, List.drop_length, if_neg hmem]
    dsimp only
    split <;> rfl

theorem get?_assign (f : Filter) (setting : Option Bytes × Level) (target : Option Bytes) :
    (f.assign setting).get? target =
      if target = setting.1 then some setting.2 else f.get? target := by
  obtain ⟨_ | name, level⟩ := setting
  · cases target <;> simp [assign, get?, setFallback]
  · cases target with
    | none => simp [assign, get?, setModule]
    | some other =>
      by_cases h : other = name
      · simp [assign, get?, setModule, h]
      · have hb : (other == name) = false := by simpa using h
        simp [assign, get?, setModule, List.lookup_cons, hb, h, lookup_filter_ne h]

/-- In a run of entries the last one that sets a level wins. -/
theorem get?_foldl_addEntry (f : Filter) (entries : List Bytes) (target : Option Bytes) :
    (entries.foldl addEntry f).get? target =
      ((entries.filterMap setting?).reverse.lookup target).or (f.get? target) := by
  induction entries using List.reverseRecOn with
  | nil => rfl
  | append_singleton entries entry ih =>
    rw [List.foldl_append, List.foldl_cons, List.foldl_nil, addEntry_eq, List.filterMap_append,
      List.reverse_append]
    cases h : setting? entry with
    | none => simp [h, ih]
    | some setting =>
      obtain ⟨name, level⟩ := setting
      rw [Option.elim_some, get?_assign, ih]
      by_cases ht : target = name
      · simp [h, ht]
      · have hb : (target == name) = false := by simpa using ht
        simp [h, List.lookup_cons, ht, hb]

/-- Of a filter that takes in a specification only the level for parts without a name remains. -/
theorem get?_parse (f : Filter) (spec : Bytes) (target : Option Bytes) :
    (f.parse spec).get? target =
      (set? spec target).or (if target = none then some f.fallback else none) := by
  rw [parse, get?_foldl_addEntry, Bytes.splitAt_eq_splitOn, set?]
  cases target <;> rfl

theorem fallback_parse (f : Filter) (spec : Bytes) :
    (f.parse spec).fallback = (set? spec none).getD f.fallback := by
  have h := f.get?_parse spec none
  cases hset : set? spec none <;> simpa [get?, hset] using h

theorem lookup_parse (f : Filter) (spec name : Bytes) :
    (f.parse spec).modules.lookup name = set? spec (some name) := by
  simpa [get?] using f.get?_parse spec (some name)

theorem levelOf_parse (f : Filter) (spec module : Bytes) : (f.parse spec).levelOf module =
    (set? spec (some module)).getD ((set? spec none).getD f.fallback) := by
  rw [levelOf, lookup_parse, fallback_parse]

/-! ## The least level -/

theorem isLeast_foldl_min (levels : List Level) (a : Level) :
    IsLeast {level | level = a ∨ level ∈ levels} (levels.foldl min a) := by
  induction levels generalizing a with
  | nil => simp [IsLeast, lowerBounds]
  | cons b levels ih =>
    obtain ⟨hmem, hle⟩ := ih (min a b)
    rw [List.foldl_cons]
    refine ⟨?_, ?_⟩
    · rcases hmem with hmin | hmem
      · rcases min_choice a b with h | h
        · exact .inl (hmin.trans h)
        · exact .inr (List.mem_cons.mpr (.inl (hmin.trans h)))
      · exact .inr (List.mem_cons_of_mem b hmem)
    · rintro level (rfl | hlevel)
      · exact (hle (.inl rfl)).trans (min_le_left level b)
      · rcases List.mem_cons.mp hlevel with rfl | hlevel
        · exact (hle (.inl rfl)).trans (min_le_right a level)
        · exact hle (.inr hlevel)

/-- No entry of the filter hides another. -/
def Distinct (f : Filter) : Prop :=
  ∀ entry ∈ f.modules, f.modules.lookup entry.1 = some entry.2

theorem Distinct.assign {f : Filter} (h : f.Distinct) (setting : Option Bytes × Level) :
    (f.assign setting).Distinct := by
  obtain ⟨_ | name, level⟩ := setting
  · exact h
  · intro entry hentry
    rcases List.mem_cons.mp hentry with rfl | hentry
    · simp [Filter.assign, setModule]
    · obtain ⟨hmem, hne⟩ := List.mem_filter.mp hentry
      have hne : entry.1 ≠ name := by simpa using hne
      have hget := f.get?_assign (some name, level) (some entry.1)
      rw [if_neg (by simpa using hne)] at hget
      exact hget.trans (h entry hmem)

theorem distinct_parse (f : Filter) (spec : Bytes) : (f.parse spec).Distinct := by
  have hrun : ∀ (entries : List Bytes) (f : Filter), f.Distinct →
      (entries.foldl addEntry f).Distinct := by
    intro entries
    induction entries with
    | nil => exact fun _ h => h
    | cons entry entries ih =>
      intro f h
      refine ih _ ?_
      rw [addEntry_eq]
      cases setting? entry with
      | none => exact h
      | some setting => exact h.assign setting
  exact hrun _ _ (List.forall_mem_nil _)

/-- The least level of a filter is the least of those it gives to parts, named or not. -/
theorem isLeast_minLevel {f : Filter} (h : f.Distinct) :
    IsLeast {level | ∃ target, f.get? target = some level} f.minLevel := by
  have hlevels : {level | ∃ target, f.get? target = some level} =
      {level | level = f.fallback ∨ level ∈ f.modules.map Prod.snd} := by
    ext level
    constructor
    · rintro ⟨_ | name, hget⟩
      · exact .inl (Option.some.inj hget).symm
      · obtain ⟨before, later, heq, -⟩ := List.lookup_eq_some_iff.mp hget
        refine .inr (List.mem_map.mpr ⟨(name, level), ?_, rfl⟩)
        rw [heq]
        simp
    · rintro (rfl | hmem)
      · exact ⟨none, rfl⟩
      · obtain ⟨entry, hentry, rfl⟩ := List.mem_map.mp hmem
        exact ⟨some entry.1, h entry hentry⟩
  rw [hlevels]
  exact isLeast_foldl_min _ _

theorem get?_levelOf (f : Filter) (module : Bytes) :
    ∃ target, f.get? target = some (f.levelOf module) := by
  unfold levelOf
  cases h : f.modules.lookup module with
  | none => exact ⟨none, rfl⟩
  | some level => exact ⟨some module, h⟩

theorem minLevel_le_levelOf {f : Filter} (h : f.Distinct) (module : Bytes) :
    f.minLevel ≤ f.levelOf module :=
  (isLeast_minLevel h).2 (f.get?_levelOf module)

theorem minLevel_le_fallback (f : Filter) : f.minLevel ≤ f.fallback :=
  (isLeast_foldl_min _ _).2 (.inl rfl)

end Filter

/-! ## Loggers -/

namespace Logger

/-- The level of the logger turns down nothing that its filter lets through. -/
theorem allows_iff {l : Logger} {module : Bytes} (h : l.level ≤ l.filter.levelOf module)
    (level : Level) : l.allows level module = true ↔ l.filter.levelOf module ≤ level := by
  simp only [allows, Filter.allows, Bool.and_eq_true, decide_eq_true_eq, and_iff_right_iff_imp]
  exact h.trans

/-- The filter of a logger that is set up with a specification. -/
theorem configure_of_filter (l : Logger) {setup : LogSetup} (h : setup.filter ≠ []) :
    (l.configure setup).filter = (l.filter.parse setup.filter).setFallback
        (min setup.level (l.filter.parse setup.filter).fallback) ∧
      (l.configure setup).level = (l.configure setup).filter.minLevel := by
  simp only [configure, if_neg h, and_true]
  split
  · rename_i hlt
    rw [min_eq_left hlt.le]
  · rename_i hle
    rw [min_eq_right (not_lt.mp hle)]
    rfl

theorem level_configure_le (l : Logger) (setup : LogSetup) :
    (l.configure setup).level ≤ (l.configure setup).filter.fallback := by
  by_cases h : setup.filter = []
  · rw [configure, if_pos h]
    exact le_refl setup.level
  · rw [(l.configure_of_filter h).2]
    exact Filter.minLevel_le_fallback _

/-- Two loggers let the same events through, to sinks that may differ. -/
def SameRules (l l' : Logger) : Prop :=
  l'.level = l.level ∧ l'.filter = l.filter

theorem SameRules.trans {l l' l'' : Logger} (h : l.SameRules l') (h' : l'.SameRules l'') :
    l.SameRules l'' :=
  ⟨h'.1.trans h.1, h'.2.trans h.2⟩

/-- The level of a logger lets through what its filter lets through of parts without a name. -/
def Sound (l : Logger) : Prop :=
  l.level ≤ l.filter.fallback

theorem SameRules.sound {l l' : Logger} (h : l.SameRules l') (hl : l.Sound) : l'.Sound := by
  rwa [Sound, h.1, h.2]

theorem Sound.allows_iff {l : Logger} (h : l.Sound) {module : Bytes}
    (hmodule : l.filter.modules.lookup module = none) (level : Level) :
    l.allows level module = true ↔ l.filter.fallback ≤ level := by
  have hlevel : l.filter.levelOf module = l.filter.fallback := by
    rw [Filter.levelOf, hmodule, Option.getD_none]
  rw [Logger.allows_iff (hlevel ▸ h), hlevel]

end Logger

/-! ## Sessions -/

namespace Session

theorem sameRules_openConsole (s : Session) (setup : LogSetup) :
    s.logger.SameRules (s.openConsole setup).logger := by
  unfold openConsole
  split <;> exact ⟨rfl, rfl⟩

theorem sameRules_addFile? (s : Session) (path : Bytes) (append : Bool) (format : RecordFormat) :
    s.logger.SameRules ((s.addFile? path append format).getD s).logger := by
  unfold addFile?
  cases LogFile.open? path append format s.world <;> exact ⟨rfl, rfl⟩

theorem sameRules_openLogFile (s : Session) (setup : LogSetup) :
    s.logger.SameRules (s.openLogFile setup).logger := by
  rw [(s.openLogFile_spec setup).1]
  exact s.sameRules_addFile? setup.file true setup.format

theorem sameRules_init (s : Session) (setup : LogSetup) :
    (s.logger.configure setup).SameRules (s.init setup).logger := by
  let s' := { s.closeSinks with logger := s.closeSinks.logger.configure setup }
  have hclosed : (s.logger.configure setup).SameRules s'.logger := by
    change (s.logger.configure setup).SameRules ({ s.logger with sinks := [] }.configure setup)
    unfold Logger.configure
    split <;> exact ⟨rfl, rfl⟩
  exact hclosed.trans ((s'.sameRules_openConsole setup).trans (sameRules_openLogFile _ setup))

/-- What one action does to a logger keeps it sound. -/
theorem sound_act {s : Session} (h : s.logger.Sound) (a : Action) : (s.act a).logger.Sound := by
  cases a with
  | init setup => exact (s.sameRules_init setup).sound (s.logger.level_configure_le setup)
  | setLevel level => exact le_refl level
  | setFilter spec => exact Filter.minLevel_le_fallback _
  | log event =>
    rw [act, log]
    split <;> exact h
  | addFile path append format => exact (s.sameRules_addFile? path append format).sound h
  | _ => exact h

theorem sound_run (w : World) (actions : List Action) :
    (actions.foldl act (start w)).logger.Sound := by
  induction actions using List.reverseRecOn with
  | nil => exact le_refl Level.info
  | append_singleton actions a ih =>
    rw [List.foldl_append]
    exact sound_act ih a

/-- After a filter is set, an event gets through if its level is at least the one that the
specification sets for its part or, if it sets none, for all others; if it sets none for these
either, the level that was in force for them stays. The level of the logger is the least of those
in force. -/
theorem filter_decides (w : World) (actions : List Action) (spec : Bytes) :
    let s := actions.foldl act (start w)
    let l := (s.act (.setFilter spec)).logger
    let fallback := (Filter.set? spec none).getD s.logger.filter.fallback
    (∀ module, s.logger.filter.modules.lookup module = none → ∀ level,
      (s.logger.allows level module = true ↔ s.logger.filter.fallback ≤ level)) ∧
    (∀ level module, l.allows level module = true ↔
      (Filter.set? spec (some module)).getD fallback ≤ level) ∧
    IsLeast {level | level = fallback ∨ ∃ module, Filter.set? spec (some module) = some level}
      l.level := by
  intro s l fallback
  have hdistinct := s.logger.filter.distinct_parse spec
  refine ⟨fun module hmodule => (sound_run w actions).allows_iff hmodule,
    fun level module => ?_, ?_⟩
  · rw [← s.logger.filter.levelOf_parse spec module]
    exact Logger.allows_iff (Filter.minLevel_le_levelOf hdistinct module) level
  · have hlevels : {level | level = fallback ∨
        ∃ module, Filter.set? spec (some module) = some level} =
        {level | ∃ target, (s.logger.filter.parse spec).get? target = some level} := by
      ext level
      simp only [Set.mem_ofPred_eq, Option.exists, Filter.get?, Filter.lookup_parse,
        Filter.fallback_parse, Option.some.injEq, eq_comm, fallback]
    rw [hlevels]
    exact Filter.isLeast_minLevel hdistinct

/-- A level set before a filter stays in force where the specification has no star. The last segment
for a part wins, and an empty one says nothing. -/
theorem filter_decides_last :
    let spec := ascii "rules=trace,,lint,rules=error,"
    let s := [Action.setLevel .fatal, .setFilter (ascii "lexer=debug")].foldl act (start default)
    let l := (s.act (.setFilter spec)).logger
    (∀ level, l.allows level (ascii "rules") = true ↔ Level.error ≤ level) ∧
      (∀ level, l.allows level (ascii "lint") = true ↔ Level.trace ≤ level) ∧
      (∀ level, l.allows level (ascii "lexer") = true ↔ Level.fatal ≤ level) := by
  intro spec s l
  obtain ⟨-, hallows, -⟩ :=
    filter_decides default [.setLevel .fatal, .setFilter (ascii "lexer=debug")] spec
  exact ⟨fun level => hallows level (ascii "rules"), fun level => hallows level (ascii "lint"),
    fun level => hallows level (ascii "lexer")⟩

/-- With a filter, a part that the specification does not name needs the level of the setup or, if
that is lower, the one that the specification sets for such parts; if it sets none, the one that was
in force before. That is the level set by the specification, or else the level of the setup, exactly
if the one is not above the level of the setup, or else if this is not above the one before. -/
theorem fallback_after_init (w : World) (actions : List Action) {setup : LogSetup}
    (hfilter : setup.filter ≠ []) {module : Bytes}
    (hmodule : Filter.set? setup.filter (some module) = none) :
    let s := actions.foldl act (start w)
    let l := (s.act (.init setup)).logger
    let star := Filter.set? setup.filter none
    let before := s.logger.filter.fallback
    (∀ level, l.allows level module = true ↔ min setup.level (star.getD before) ≤ level) ∧
    ((∀ level, l.allows level module = true ↔ star.getD setup.level ≤ level) ↔
      star.elim (setup.level ≤ before) (· ≤ setup.level)) := by
  intro s l star before
  have hrules : l.filter = (s.logger.filter.parse setup.filter).setFallback
      (min setup.level (star.getD before)) := by
    rw [← Filter.fallback_parse, ← (s.logger.configure_of_filter hfilter).1]
    exact (s.sameRules_init setup).2
  have hlookup : l.filter.modules.lookup module = none := by
    rw [hrules, ← hmodule]
    exact s.logger.filter.lookup_parse setup.filter module
  have hsound : l.Sound := sound_act (sound_run w actions) (.init setup)
  have hallows : ∀ level, l.allows level module = true ↔
      min setup.level (star.getD before) ≤ level := by
    intro level
    rw [hsound.allows_iff hlookup, hrules]
    rfl
  refine ⟨hallows, ?_⟩
  simp only [hallows]
  exact Level.forall_min_le_iff star setup.level before

/-- In a new process informative events of other parts get through although the level is to be
`Level.warn` and the specification sets none for them. If it sets one above the level of the setup,
that is not heeded. -/
theorem fallback_after_init_info :
    let setup : LogSetup := ⟨.warn, .text, ascii "rules=trace", [], true, true⟩
    let setup' : LogSetup := { setup with level := .info, filter := ascii "rules=trace,*=error" }
    setup.filter ≠ [] ∧ Filter.set? setup.filter (some (ascii "lint")) = none ∧
      ((start default).act (.init setup)).logger.allows .info (ascii "lint") = true ∧
      setup'.filter ≠ [] ∧ Filter.set? setup'.filter (some (ascii "lint")) = none ∧
      ((start default).act (.init setup')).logger.allows .info (ascii "lint") = true := by
  intro setup setup'
  have hfilter : setup.filter ≠ [] := by decide
  have hmodule : Filter.set? setup.filter (some (ascii "lint")) = none := by decide +kernel
  have hfilter' : setup'.filter ≠ [] := by decide
  have hmodule' : Filter.set? setup'.filter (some (ascii "lint")) = none := by decide +kernel
  exact ⟨hfilter, hmodule, ((fallback_after_init default [] hfilter hmodule).1 .info).mpr
    (by decide +kernel), hfilter', hmodule',
    ((fallback_after_init default [] hfilter' hmodule').1 .info).mpr (by decide +kernel)⟩

end Session

end TextDomain
