import TextDomain.Log.Level

/-!
# Log filters

A `Filter` gives each part of the program a least level. It is written as a specification such as
`rules=trace,lint=debug,*=warn`, where `*` stands for every part that is not named. A part named
without a level logs everything. Later entries win over earlier ones.
-/

namespace TextDomain

/-- The least level of each part of the program. -/
structure Filter where
  /-- The level of the parts that are not named. -/
  fallback : Level
  /-- The levels of the named parts, each named once. -/
  modules : List (Bytes × Level)
  deriving DecidableEq, Inhabited, Repr

namespace Filter

/-- No part is named. -/
def initial : Filter :=
  ⟨.info, []⟩

/-- Sets the level of one part. -/
def setModule (f : Filter) (name : Bytes) (level : Level) : Filter :=
  { f with modules := (name, level) :: f.modules.filter (·.1 != name) }

/-- Sets the level of the parts that are not named. -/
def setFallback (f : Filter) (level : Level) : Filter :=
  { f with fallback := level }

/-- Takes in one entry of a specification. -/
def addEntry (f : Filter) (entry : Bytes) : Filter :=
  let name := entry.takeWhile (· != Byte.equals)
  match entry.dropWhile (· != Byte.equals) with
  | _ :: word =>
    if name = [Byte.star] then f.setFallback (.ofWord word) else f.setModule name (.ofWord word)
  | [] => if entry = [] then f else f.setModule entry .trace

/-- Takes in a specification. The named parts are forgotten, the level of the others is kept unless
the specification sets it. -/
def parse (f : Filter) (spec : Bytes) : Filter :=
  (Bytes.splitAt Byte.comma spec).foldl addEntry { f with modules := [] }

/-- The least level of a part. -/
def levelOf (f : Filter) (module : Bytes) : Level :=
  (f.modules.lookup module).getD f.fallback

@[simp] theorem levelOf_setModule_self (f : Filter) (name : Bytes) (level : Level) :
    (f.setModule name level).levelOf name = level := by
  simp [levelOf, setModule]

theorem lookup_filter_ne {name other : Bytes} (h : other ≠ name) :
    ∀ modules : List (Bytes × Level),
      (modules.filter (·.1 != name)).lookup other = modules.lookup other
  | [] => rfl
  | (part, level) :: modules => by
    have ih := lookup_filter_ne h modules
    by_cases hp : part = name
    · subst hp
      have ho : (other == part) = false := by simpa using h
      simpa [List.lookup_cons, ho] using ih
    · simp [hp, List.lookup_cons, ih]

theorem levelOf_setModule_of_ne (f : Filter) {name other : Bytes} (level : Level)
    (h : other ≠ name) : (f.setModule name level).levelOf other = f.levelOf other := by
  have ho : (other == name) = false := by simpa using h
  simp [levelOf, setModule, List.lookup_cons, ho, lookup_filter_ne h]

/-- The filter lets an event through. -/
def allows (f : Filter) (level : Level) (module : Bytes) : Bool :=
  f.levelOf module ≤ level

/-- The least of all levels in the filter. -/
def minLevel (f : Filter) : Level :=
  (f.modules.map Prod.snd).foldl min f.fallback

end Filter

end TextDomain
