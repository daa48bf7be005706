import TextDomain.Proofs.Logging

/-!
# Log files lose nothing

A log file gathers text before it writes it to the disk, and it may be closed and opened again. The
`Journal` of a place is what the file there would hold if all text were written at once: it grows
with every record that is logged while a log file is open on the place.

`Session.Keeps` ties a session to a journal: what is on the disk, with what the open log file still
has pending, is the content of the journal. Handing a text to all sinks keeps this up
(`Session.Keeps.forSinks`), and so does whatever else can be asked of a logger
(`Session.Keeps.act`), if no second log file is opened on the place and there is room for what is
written there (`Tree.Stores`). A file does not say how much it can gather, so at any moment some of
what is pending may be written out (`LogFile.spill`).
-/

namespace TextDomain

/-! ## Opening files -/

namespace Tree

variable {t t' : Tree} {path : Bytes} {place : Place}

theorem find?_of_move {here : Place} {step : PathStep} (h : t.move here step = .vacant place) :
    t.find? place = none := by
  unfold move at h
  split at h
  · cases step with
    | down name =>
      dsimp only at h
      split at h
      · split at h
        · rename_i hnone
          cases h
          exact hnone
        · cases h
        · cases h
      · cases h
    | beFolder => cases h
    | stay => dsimp only at h; split at h <;> cases h
    | up => dsimp only at h; split at h <;> cases h
  · cases h

theorem find?_of_walk {jump : Place → Bytes → List PathStep → Found} {here : Place}
    {steps : List PathStep}
    (hjump : ∀ folder target rest, jump folder target rest = .vacant place → t.find? place = none)
    (h : t.walk jump here steps = .vacant place) : t.find? place = none := by
  induction steps generalizing here with
  | nil => cases h
  | cons step steps ih =>
    rw [walk] at h
    cases hmove : t.move here step with
    | entry next =>
      rw [hmove] at h
      exact ih h
    | link target =>
      rw [hmove] at h
      exact hjump here target steps h
    | vacant free =>
      simp only [hmove] at h
      split at h
      · cases h
        exact find?_of_move hmove
      · cases h
    | missing => simp [hmove] at h
    | denied => simp [hmove] at h

theorem find?_of_follow {links : Nat} {here : Place} {steps : List PathStep}
    (h : t.follow links here steps = .vacant place) : t.find? place = none := by
  induction links generalizing here steps with
  | zero => exact find?_of_walk (fun _ _ _ h => by cases h) h
  | succ links ih =>
    refine find?_of_walk (fun folder target rest hjump => ?_) h
    split at hjump
    · cases hjump
    · exact ih hjump

theorem find?_of_resolve (h : t.resolve path = .vacant place) : t.find? place = none := by
  unfold resolve at h
  split at h
  · cases h
  · exact find?_of_follow h

/-- What is written at a place stays there: it is no device, and there is room for any text. -/
def Stores (t : Tree) (place : Place) : Prop :=
  (∀ access, t.find? place ≠ some (.special access)) ∧
    ∀ content access, t.find? place = some (.file content access) → access.room = none

theorem stores_of_find? {content : Bytes} {access : Access}
    (hfind : t.find? place = some (.file content access)) (hroom : access.room = none) :
    t.Stores place := by
  refine ⟨by simp [hfind], fun content' access' hfind' => ?_⟩
  obtain ⟨-, rfl⟩ := Entry.file.inj (Option.some.inj (hfind.symm.trans hfind'))
  exact hroom

theorem Stores.congr (h : t.Stores place) (hfind : t'.find? place = t.find? place) :
    t'.Stores place := by
  rwa [Stores, hfind]

/-- Opening a file changes nothing at other places. -/
theorem find?_open?_of_ne (h : t.open? path = some (place, t')) {other : Place}
    (hother : other ≠ place) : t'.find? other = t.find? other := by
  unfold open? at h
  split at h
  · split at h
    · obtain ⟨-, h⟩ := Option.ite_none_right_eq_some.mp h
      cases h
      rfl
    · obtain ⟨-, h⟩ := Option.ite_none_right_eq_some.mp h
      cases h
      rfl
    · cases h
  · split at h
    · obtain ⟨-, h⟩ := Option.ite_none_right_eq_some.mp h
      cases h
      exact find?_put_of_ne t _ hother
    · cases h
  · cases h

/-- A file that is opened holds what was at its place, and has room for more. -/
theorem find?_open? (h : t.open? path = some (place, t')) (hstores : t.Stores place) :
    ∃ access, t'.find? place = some (.file (t.contentAt place) access) ∧ access.room = none := by
  unfold open? at h
  split at h
  · split at h
    · rename_i content access hfind
      obtain ⟨-, h⟩ := Option.ite_none_right_eq_some.mp h
      cases h
      exact ⟨access, by rw [contentAt, hfind], hstores.2 content access hfind⟩
    · rename_i access hfind
      obtain ⟨-, h⟩ := Option.ite_none_right_eq_some.mp h
      cases h
      exact absurd hfind (hstores.1 access)
    · cases h
  · rename_i hvacant
    split at h
    · obtain ⟨-, h⟩ := Option.ite_none_right_eq_some.mp h
      cases h
      refine ⟨.full, ?_, rfl⟩
      rw [find?_put_self, contentAt, find?_of_resolve hvacant]
    · cases h
  · cases h

theorem contentAt_congr (h : t'.find? place = t.find? place) :
    t'.contentAt place = t.contentAt place := by
  rw [contentAt, h, contentAt]

/-- Where a path is opened does not depend on contents. -/
theorem opened?_congr (h : t'.outline = t.outline) (path : Bytes) :
    t'.opened? path = t.opened? path := by
  rw [← opened?_outline, h, opened?_outline]

end Tree

/-! ## Log files -/

namespace LogFile

variable {f : LogFile} {w : World} {content : Bytes} {access : Access}

theorem pending_flush (f : LogFile) (w : World) : (f.flush w).1.pending = [] := by
  unfold flush
  split
  · assumption
  · rfl

theorem clock_flush (f : LogFile) (w : World) : (f.flush w).2.clock = w.clock := by
  unfold flush
  split <;> rfl

/-- What is pending goes to the end of the file. -/
theorem flush_spec (hoffset : f.offset = none)
    (hfind : w.tree.find? f.place = some (.file content access)) (hroom : access.room = none) :
    (f.flush w).1 = { f with pending := [] } ∧
      (f.flush w).2.tree.find? f.place = some (.file (content ++ f.pending) access) := by
  have hcontent : w.tree.contentAt f.place = content := by rw [Tree.contentAt, hfind]
  unfold flush
  split
  · rename_i hpending
    rw [hpending, List.append_nil, ← hpending]
    exact ⟨rfl, hfind⟩
  · refine ⟨by rw [hoffset]; rfl, ?_⟩
    rw [updated, hoffset, hcontent, Tree.find?_setContent_self _ hfind, Access.cut, hroom]

/-- Writes the first bytes of what is pending. -/
def spill (count : Nat) (f : LogFile) (w : World) : LogFile × World :=
  let flushed := { f with pending := f.pending.take count }.flush w
  ({ flushed.1 with pending := f.pending.drop count }, flushed.2)

theorem spill_spec (count : Nat) (hoffset : f.offset = none)
    (hfind : w.tree.find? f.place = some (.file content access)) (hroom : access.room = none) :
    (f.spill count w).1 = { f with pending := f.pending.drop count } ∧
      (f.spill count w).2.tree.find? f.place =
        some (.file (content ++ f.pending.take count) access) := by
  obtain ⟨hfile, htree⟩ :=
    flush_spec (f := { f with pending := f.pending.take count }) hoffset hfind hroom
  exact ⟨congrArg (fun g : LogFile => { g with pending := f.pending.drop count }) hfile, htree⟩

/-- A file that has been opened, and the world in which it is open. -/
theorem open?_spec {path : Bytes} {append : Bool} {format : RecordFormat} {w' : World}
    (h : open? path append format w = some (f, w')) :
    w.tree.opened? path = some f.place ∧ f.format = format ∧ f.pending = [] ∧
      (∀ place ≠ f.place, w'.tree.find? place = w.tree.find? place) ∧
      (append = true → w.tree.Stores f.place → f.offset = none ∧
        ∃ access, w'.tree.find? f.place = some (.file (w.tree.contentAt f.place) access) ∧
          access.room = none) := by
  obtain ⟨⟨place, tree⟩, hopen, hresult⟩ := Option.map_eq_some_iff.mp h
  have hother := fun other (hne : other ≠ place) => Tree.find?_open?_of_ne hopen hne
  have hplace : w.tree.opened? path = some place := by rw [Tree.opened?, hopen, Option.map_some]
  cases append with
  | true =>
    cases hresult
    exact ⟨hplace, rfl, rfl, hother, fun _ hstores => ⟨rfl, Tree.find?_open? hopen hstores⟩⟩
  | false =>
    cases hresult
    refine ⟨hplace, rfl, rfl, fun other hne => ?_, fun h => absurd h Bool.false_ne_true⟩
    exact (Tree.find?_setContent_of_ne tree [] hne).trans (hother other hne)

end LogFile

/-! ## Sinks -/

namespace Sink

/-- Writes the first bytes of what is pending at a place. -/
def spill (place : Place) (count : Nat) (w : World) : Sink → Sink × World
  | console stream colors format => (console stream colors format, w)
  | file f =>
    if f.place = place then (file (f.spill count w).1, (f.spill count w).2) else (file f, w)

/-- What an action on a sink may do: it hands a text to each log file, which writes some of what is
then pending to its end and keeps the rest. -/
structure Appends (action : World → Sink → Sink × World) (text : RecordFormat → Int → Bytes) :
    Prop where
  undisturbed : ∀ w sink, (action w sink).1.place? = sink.place? ∧
    World.Undisturbed sink.place?.toList w (action w sink).2
  clock_eq : ∀ w sink, (action w sink).2.clock = w.clock
  appends : ∀ {w : World} {f : LogFile} {content : Bytes} {access : Access}, f.offset = none →
    w.tree.find? f.place = some (.file content access) → access.room = none →
    ∃ written pending, (action w (file f)).1 = file { f with pending := pending } ∧
      (action w (file f)).2.tree.find? f.place = some (.file (content ++ written) access) ∧
      written ++ pending = f.pending ++ text f.format w.clock

theorem appends_flush : Appends flush fun _ _ => [] where
  undisturbed w sink := by
    cases sink with
    | console stream colors format => exact ⟨rfl, .refl _ w⟩
    | file f => exact ⟨congrArg some (f.place_flush w), f.undisturbed_flush w⟩
  clock_eq w sink := by
    cases sink with
    | console stream colors format => rfl
    | file f => exact f.clock_flush w
  appends {w f content access} hoffset hfind hroom := by
    obtain ⟨hfile, htree⟩ := LogFile.flush_spec hoffset hfind hroom
    exact ⟨f.pending, [], congrArg file hfile, htree, rfl⟩

theorem appends_spill (place : Place) (count : Nat) :
    Appends (spill place count) fun _ _ => [] where
  undisturbed w sink := by
    cases sink with
    | console stream colors format => exact ⟨rfl, .refl _ w⟩
    | file f =>
      let taken := { f with pending := f.pending.take count }
      rw [spill]
      split
      · exact ⟨congrArg some (taken.place_flush w), taken.undisturbed_flush w⟩
      · exact ⟨rfl, .refl _ w⟩
  clock_eq w sink := by
    cases sink with
    | console stream colors format => rfl
    | file f =>
      rw [spill]
      split
      · exact LogFile.clock_flush _ w
      · rfl
  appends {w f content access} hoffset hfind hroom := by
    obtain ⟨hfile, htree⟩ := LogFile.spill_spec count hoffset hfind hroom
    rw [spill]
    split
    · refine ⟨f.pending.take count, f.pending.drop count, congrArg file hfile, htree, ?_⟩
      rw [List.take_append_drop, List.append_nil]
    · exact ⟨[], f.pending, rfl, by rwa [List.append_nil], (List.append_nil _).symm⟩

theorem appends_write (r : Record) :
    Appends (fun w => write r w) fun format clock => r.render format clock none where
  undisturbed w sink := undisturbed_write r w sink
  clock_eq w sink := by
    cases sink with
    | console stream colors format => cases stream <;> rfl
    | file f =>
      rw [write, LogFile.write]
      dsimp only
      split
      · exact LogFile.clock_flush _ w
      · rfl
  appends {w f content access} hoffset hfind hroom := by
    let taken := { f with pending := f.pending ++ r.render f.format w.clock none }
    rw [write, LogFile.write]
    dsimp only
    split
    · obtain ⟨hfile, htree⟩ := LogFile.flush_spec (f := taken) hoffset hfind hroom
      exact ⟨taken.pending, [], congrArg file hfile, htree, List.append_nil _⟩
    · exact ⟨[], taken.pending, rfl, by rwa [List.append_nil], rfl⟩

theorem each_cons (action : World → Sink → Sink × World) (sink : Sink) (sinks : List Sink)
    (w : World) : each action (sink :: sinks) w =
      ((action w sink).1 :: (each action sinks (action w sink).2).1,
        (each action sinks (action w sink).2).2) := rfl

theorem each_append (action : World → Sink → Sink × World) (sinks later : List Sink) (w : World) :
    each action (sinks ++ later) w =
      ((each action sinks w).1 ++ (each action later (each action sinks w).2).1,
        (each action later (each action sinks w).2).2) := by
  induction sinks generalizing w with
  | nil => rfl
  | cons sink sinks ih => simp only [List.cons_append, each_cons, ih]

theorem clock_each {action : World → Sink → Sink × World}
    (h : ∀ w sink, (action w sink).2.clock = w.clock) (sinks : List Sink) (w : World) :
    (each action sinks w).2.clock = w.clock := by
  induction sinks generalizing w with
  | nil => rfl
  | cons sink sinks ih => exact (ih _).trans (h w sink)

/-- Nothing is pending. -/
def IsSettled : Sink → Prop
  | console _ _ _ => True
  | file f => f.pending = []

theorem isSettled_each {action : World → Sink → Sink × World}
    (h : ∀ w sink, (action w sink).1.IsSettled) (sinks : List Sink) (w : World) :
    ∀ sink ∈ (each action sinks w).1, sink.IsSettled := by
  induction sinks generalizing w with
  | nil => exact List.forall_mem_nil _
  | cons sink sinks ih => exact List.forall_mem_cons.mpr ⟨h w sink, ih _⟩

theorem isSettled_flush (w : World) (sink : Sink) : (sink.flush w).1.IsSettled := by
  cases sink with
  | console stream colors format => trivial
  | file f => exact f.pending_flush w

/-- A log file writes all it has when it gets an error. -/
theorem isSettled_write {r : Record} (h : Level.error ≤ r.level) (w : World) (sink : Sink) :
    (sink.write r w).1.IsSettled := by
  cases sink with
  | console stream colors format => trivial
  | file f =>
    rw [write, LogFile.write, if_pos h]
    exact LogFile.pending_flush _ w

end Sink

/-! ## Journals -/

@[simp] theorem Logger.sinks_configure (l : Logger) (setup : LogSetup) :
    (l.configure setup).sinks = l.sinks := by
  unfold configure
  split <;> rfl

/-- What a log file at a place would hold if all text were written at once. -/
structure Journal where
  /-- How records are written, while a log file is open on the place. -/
  format : Option RecordFormat
  content : Bytes

namespace Journal

/-- Takes in a text, if a log file is open. -/
def add (j : Journal) (text : RecordFormat → Bytes) : Journal :=
  match j.format with
  | none => j
  | some format => { j with content := j.content ++ text format }

/-- Takes in a record that is logged at a time. -/
def note (j : Journal) (r : Record) (clock : Int) : Journal :=
  j.add fun format => r.render format clock none

@[simp] theorem add_nil (j : Journal) : j.add (fun _ => []) = j := by
  obtain ⟨_ | format, content⟩ := j <;> simp [add]

/-- The journal of a place after an action. A log file is opened on the place if the path that is
asked for leads there and can be opened. -/
def act (place : Place) (s : Session) (j : Journal) : Session.Action → Journal
  | .init setup =>
    { j with format := if s.world.tree.opened? setup.file = some place then some setup.format
      else none }
  | .addFile path _ format =>
    { j with format := if s.world.tree.opened? path = some place then some format else j.format }
  | .closeSinks => { j with format := none }
  | .write r => j.note r s.world.clock
  | .record e => j.note ⟨e, s.world.clock⟩ s.world.clock
  | .log e =>
    if Level.trace ≤ e.level ∧ s.logger.allows e.level e.module then
      j.note ⟨e, s.world.clock⟩ s.world.clock
    else j
  | .setLevel _ => j
  | .setFilter _ => j
  | .flush => j
  | .addConsole _ _ => j

end Journal

namespace Session

/-- Does the same with every sink of the logger. -/
def forSinks (s : Session) (action : World → Sink → Sink × World) : Session :=
  let (sinks, world) := Sink.each action s.logger.sinks s.world
  ⟨world, { s.logger with sinks := sinks }⟩

theorem undisturbed_forSinks {action : World → Sink → Sink × World}
    {text : RecordFormat → Int → Bytes} (h : Sink.Appends action text) (s : Session) :
    Undisturbed s (s.forSinks action) := by
  obtain ⟨hplaces, hworld⟩ := Sink.undisturbed_each h.undisturbed s.logger.sinks s.world
  exact ⟨hplaces, hworld⟩

/-- The disk and the log file that is open on a place hold what is in a journal. -/
inductive Keeps (place : Place) (s : Session) (j : Journal) : Prop where
  | closed (hformat : j.format = none) (hplace : place ∉ s.logPlaces)
      (hstores : s.world.tree.Stores place) (hcontent : s.world.tree.contentAt place = j.content) :
      Keeps place s j
  | opened {before after : List Sink} {format : RecordFormat} {content pending : Bytes}
      {access : Access} (hformat : j.format = some format)
      (hsinks : s.logger.sinks = before ++ .file ⟨place, format, none, pending⟩ :: after)
      (hbefore : place ∉ before.filterMap Sink.place?)
      (hafter : place ∉ after.filterMap Sink.place?)
      (hfind : s.world.tree.find? place = some (.file content access))
      (hroom : access.room = none) (hcontent : content ++ pending = j.content) : Keeps place s j

namespace Keeps

variable {place : Place} {s s' : Session} {j : Journal}

/-- What is on the disk is the beginning of the journal. -/
theorem isPrefix (h : Keeps place s j) : s.world.tree.contentAt place <+: j.content := by
  cases h with
  | closed _ _ _ hcontent => exact hcontent ▸ List.prefix_refl _
  | opened _ _ _ _ hfind _ hcontent =>
    rw [Tree.contentAt, hfind, ← hcontent]
    exact List.prefix_append _ _

/-- If nothing is pending, all of the journal is on the disk. -/
theorem content_eq (h : Keeps place s j) (hsettled : ∀ sink ∈ s.logger.sinks, sink.IsSettled) :
    s.world.tree.contentAt place = j.content := by
  cases h with
  | closed _ _ _ hcontent => exact hcontent
  | @opened before after format content pending access _ hsinks _ _ hfind _ hcontent =>
    have hpending : pending = [] := by
      refine hsettled (.file ⟨place, format, none, pending⟩) ?_
      rw [hsinks]
      exact List.mem_append_right _ List.mem_cons_self
    rw [Tree.contentAt, hfind, ← hcontent, hpending, List.append_nil]

theorem stores (h : Keeps place s j) : s.world.tree.Stores place := by
  cases h with
  | closed _ _ hstores _ => exact hstores
  | opened _ _ _ _ hfind hroom _ => exact Tree.stores_of_find? hfind hroom

/-- If no log file is open, all of the journal is on the disk. -/
theorem content_of_closed (h : Keeps place s j) (hplace : place ∉ s.logPlaces) :
    s.world.tree.contentAt place = j.content := by
  cases h with
  | closed _ _ _ hcontent => exact hcontent
  | opened _ hsinks => exact absurd (by simp [logPlaces, hsinks, Sink.place?]) hplace

theorem congr (h : Keeps place s j) (hsinks : s'.logger.sinks = s.logger.sinks)
    (hfind : s'.world.tree.find? place = s.world.tree.find? place) : Keeps place s' j := by
  cases h with
  | closed hformat hplace hstores hcontent =>
    exact .closed hformat (by rwa [logPlaces, hsinks]) (hstores.congr hfind)
      ((Tree.contentAt_congr hfind).trans hcontent)
  | opened hformat hold hbefore hafter hentry hroom hcontent =>
    exact .opened hformat (hsinks.trans hold) hbefore hafter (hfind.trans hentry) hroom hcontent

/-- Handing a text to every sink is taking it into the journal. -/
theorem forSinks {action : World → Sink → Sink × World} {text : RecordFormat → Int → Bytes}
    (haction : Sink.Appends action text) (h : Keeps place s j) :
    Keeps place (s.forSinks action) (j.add fun format => text format s.world.clock) := by
  cases h with
  | closed hformat hplace hstores hcontent =>
    have hs := undisturbed_forSinks haction s
    have hsame := hs.world.find?_eq place hplace
    have hadd : (j.add fun format => text format s.world.clock) = j := by rw [Journal.add, hformat]
    rw [hadd]
    exact .closed hformat (hs.logPlaces_eq ▸ hplace) (hstores.congr hsame)
      ((Tree.contentAt_congr hsame).trans hcontent)
  | @opened before after format content pending access hformat hsinks hbefore hafter hfind
      hroom hcontent =>
    -- first come the sinks before the log file, then the log file itself, then those after it
    have heach := Sink.undisturbed_each haction.undisturbed
    obtain ⟨hplaces₁, hworld₁⟩ := heach before s.world
    have hclock := Sink.clock_each haction.clock_eq before s.world
    obtain ⟨written, pending', hfile, hfind₂, hboth⟩ :=
      haction.appends (f := ⟨place, format, none, pending⟩) rfl
        ((hworld₁.find?_eq place hbefore).trans hfind) hroom
    obtain ⟨hplaces₃, hworld₃⟩ := heach after (action (Sink.each action before s.world).2
      (.file ⟨place, format, none, pending⟩)).2
    have hadd : (j.add fun format => text format s.world.clock) =
        { j with content := j.content ++ text format s.world.clock } := by
      rw [Journal.add, hformat]
    rw [Session.forSinks, hsinks, Sink.each_append, Sink.each_cons, hfile, hadd]
    refine .opened hformat rfl (hplaces₁ ▸ hbefore) (hplaces₃ ▸ hafter)
      ((hworld₃.find?_eq place hafter).trans hfind₂) hroom ?_
    rw [List.append_assoc, hboth, ← List.append_assoc, hcontent, hclock]

theorem flush (h : Keeps place s j) : Keeps place s.flush j := by
  have hflush := h.forSinks Sink.appends_flush
  rwa [Journal.add_nil] at hflush

/-- What is closed has been written. -/
theorem closeSinks (h : Keeps place s j) : Keeps place s.closeSinks { j with format := none } :=
  .closed rfl List.not_mem_nil h.flush.stores
    (h.flush.content_eq (Sink.isSettled_each Sink.isSettled_flush s.logger.sinks s.world))

theorem write (h : Keeps place s j) (r : Record) :
    Keeps place (s.write r) (j.note r s.world.clock) :=
  h.forSinks (Sink.appends_write r)

theorem not_mem_logPlaces (h : Keeps place s j) (hformat : j.format = none) :
    place ∉ s.logPlaces := by
  cases h with
  | closed _ hplace => exact hplace
  | opened hsome => cases hformat.symm.trans hsome

/-- A sink that writes elsewhere does not matter. -/
theorem addSink (h : Keeps place s j) {sink : Sink} (hsink : sink.place? ≠ some place) :
    Keeps place (s.addSink sink) j := by
  have hother : place ∉ [sink].filterMap Sink.place? := by
    cases hplace : sink.place? with
    | none => simp [hplace]
    | some other =>
      rw [hplace] at hsink
      simpa [hplace, eq_comm] using hsink
  cases h with
  | closed hformat hplace hstores hcontent =>
    refine .closed hformat ?_ hstores hcontent
    rw [logPlaces, Session.addSink, List.filterMap_append, List.mem_append, not_or]
    exact ⟨hplace, hother⟩
  | @opened before after format content pending access hformat hsinks hbefore hafter hfind
      hroom hcontent =>
    have hadded : (s.addSink sink).logger.sinks =
        before ++ .file ⟨place, format, none, pending⟩ :: (after ++ [sink]) := by
      rw [Session.addSink, hsinks, List.append_assoc, List.cons_append]
    refine .opened hformat hadded hbefore ?_ hfind hroom hcontent
    rw [List.filterMap_append, List.mem_append, not_or]
    exact ⟨hafter, hother⟩

/-- A log file that is opened on the place, where none is open, goes on with what is there. -/
theorem addFile? (h : Keeps place s j) (path : Bytes) (append : Bool) (format : RecordFormat)
    (halone : s.world.tree.opened? path = some place → append = true ∧ place ∉ s.logPlaces) :
    Keeps place ((s.addFile? path append format).getD s)
      { j with format := if s.world.tree.opened? path = some place then some format
        else j.format } := by
  cases hopen : LogFile.open? path append format s.world with
  | none =>
    have hclosed : s.world.tree.opened? path = none := by
      rw [Tree.opened?, Option.map_eq_none_iff]
      exact Option.map_eq_none_iff.mp hopen
    rwa [Session.addFile?, hopen, hclosed, if_neg (by simp)]
  | some opened =>
    obtain ⟨⟨where', format', offset, pending⟩, w⟩ := opened
    obtain ⟨hopened, rfl, rfl, hother, hself⟩ := LogFile.open?_spec hopen
    rw [Session.addFile?, hopen, hopened]
    by_cases hplace : where' = place
    · subst hplace
      obtain ⟨happend, hnot⟩ := halone hopened
      obtain ⟨rfl, access, hfind, hroom⟩ := hself happend h.stores
      rw [if_pos rfl]
      exact .opened rfl rfl hnot List.not_mem_nil hfind hroom
        ((List.append_nil _).trans (h.content_of_closed hnot))
    · rw [if_neg (by simpa using hplace)]
      have hworld : Keeps place { s with world := w } j :=
        h.congr rfl (hother place (Ne.symm hplace))
      exact hworld.addSink (by simpa [Sink.place?])

theorem openConsole (h : Keeps place s j) (setup : LogSetup) :
    Keeps place (s.openConsole setup) j := by
  unfold Session.openConsole
  split
  · exact h.addSink (by simp [Sink.place?])
  · exact h

theorem openLogFile (h : Keeps place s j) (setup : LogSetup) (hnone : j.format = none) :
    Keeps place (s.openLogFile setup)
      { j with format := if s.world.tree.opened? setup.file = some place then some setup.format
        else j.format } := by
  have hfile := h.addFile? setup.file true setup.format
    fun _ => ⟨rfl, h.not_mem_logPlaces hnone⟩
  obtain ⟨hlogger, htree⟩ := s.openLogFile_spec setup
  exact hfile.congr (by rw [hlogger]) (by rw [htree])

/-- Setting up the logger closes what is open on the place before it opens it again. -/
theorem init (h : Keeps place s j) (setup : LogSetup) :
    Keeps place (s.init setup) (j.act place s (.init setup)) := by
  let s' := { s.closeSinks with logger := s.closeSinks.logger.configure setup }
  have hsinks : s'.logger.sinks = [] := Logger.sinks_configure _ setup
  have hopened : (s'.openConsole setup).world.tree.opened? setup.file =
      s.world.tree.opened? setup.file := by
    refine Tree.opened?_congr ?_ setup.file
    have houtline := (undisturbed_forSinks Sink.appends_flush s).world.outline_eq
    unfold Session.openConsole
    split <;> exact houtline
  have hstart : Keeps place s' { j with format := none } := h.closeSinks.congr hsinks rfl
  have hdone := (hstart.openConsole setup).openLogFile setup rfl
  rw [hopened] at hdone
  exact hdone

/-- Whatever is asked of the logger, what the journal has is not lost. -/
theorem act (h : Keeps place s j) (a : Action)
    (halone : ∀ path append format, a = .addFile path append format →
      s.world.tree.opened? path = some place → append = true ∧ place ∉ s.logPlaces) :
    Keeps place (s.act a) (j.act place s a) := by
  cases a with
  | init setup => exact h.init setup
  | setLevel level => exact h.congr rfl rfl
  | setFilter spec => exact h.congr rfl rfl
  | write r => exact h.write r
  | record e => exact h.write _
  | log e =>
    rw [Session.act, Session.log, Journal.act]
    split
    · exact h.write _
    · exact h
  | flush => exact h.flush
  | closeSinks => exact h.closeSinks
  | addConsole colors format =>
    let s' := { s with world := { s.world with streams := s.world.streams ++ [[]] } }
    exact addSink (s := s') (h.congr rfl rfl) (by simp [Sink.place?])
  | addFile path append format =>
    exact h.addFile? path append format (halone path append format rfl)

end Keeps

/-! ## Runs -/

/-- Something that happens in a run. -/
inductive Moment where
  /-- An action at a time. -/
  | act (clock : Int) (action : Action)
  /-- The log files at a place write the first bytes of what is pending. -/
  | spill (place : Place) (count : Nat)

/-- The session at a time. -/
def atTime (s : Session) (clock : Int) : Session :=
  { s with world := { s.world with clock := clock } }

/-- What comes of a moment. -/
def undergo (s : Session) : Moment → Session
  | .act clock action => (s.atTime clock).act action
  | .spill place count => s.forSinks (Sink.spill place count)

/-- What comes of a run. -/
def after (s : Session) (moments : List Moment) : Session :=
  moments.foldl undergo s

/-- The journal of a place after a run. -/
def journal (place : Place) : Session → Journal → List Moment → Journal
  | _, j, [] => j
  | s, j, .act clock action :: moments =>
    journal place (s.undergo (.act clock action)) (j.act place (s.atTime clock) action) moments
  | s, j, .spill other count :: moments =>
    journal place (s.undergo (.spill other count)) j moments

/-- In a run no log file is added at a place while one is open there, and none but to append. -/
def OpensAlone (place : Place) (s : Session) (moments : List Moment) : Prop :=
  ∀ before clock path append format after,
    moments = before ++ .act clock (.addFile path append format) :: after →
    (s.after before).world.tree.opened? path = some place →
    append = true ∧ place ∉ (s.after before).logPlaces

theorem opensAlone_cons_iff {place : Place} {s : Session} {m : Moment} {moments : List Moment} :
    OpensAlone place s (m :: moments) ↔
      (∀ clock path append format, m = .act clock (.addFile path append format) →
        s.world.tree.opened? path = some place → append = true ∧ place ∉ s.logPlaces) ∧
      OpensAlone place (s.undergo m) moments := by
  constructor
  · intro h
    refine ⟨fun clock path append format hm => ?_, ?_⟩
    · subst hm
      exact h [] clock path append format moments rfl
    · rintro before clock path append format after rfl
      exact h (m :: before) clock path append format after rfl
  · rintro ⟨hfirst, hrest⟩ before clock path append format after heq
    cases before with
    | nil =>
      obtain ⟨rfl, -⟩ := List.cons.inj heq
      exact hfirst clock path append format rfl
    | cons first before =>
      obtain ⟨rfl, hmoments⟩ := List.cons.inj heq
      exact hrest before clock path append format after hmoments

/-- A run loses nothing of the journal. -/
theorem Keeps.after {place : Place} {s : Session} {j : Journal} {moments : List Moment}
    (h : Keeps place s j) (halone : OpensAlone place s moments) :
    Keeps place (s.after moments) (journal place s j moments) := by
  induction moments generalizing s j with
  | nil => exact h
  | cons m moments ih =>
    obtain ⟨hfirst, hrest⟩ := opensAlone_cons_iff.mp halone
    cases m with
    | act clock action =>
      have htime : Keeps place (s.atTime clock) j := h.congr rfl rfl
      refine ih (htime.act action ?_) hrest
      rintro path append format rfl
      exact hfirst clock path append format rfl
    | spill other count =>
      have hspill := h.forSinks (Sink.appends_spill other count)
      rw [Journal.add_nil] at hspill
      exact ih hspill hrest

/-- An action that has every log file write what is pending: setting up, flushing and closing do,
and so does an error or worse that is logged. -/
def Action.Settles (s : Session) : Action → Prop
  | .init _ => True
  | .flush => True
  | .closeSinks => True
  | .write r => Level.error ≤ r.level
  | .record e => Level.error ≤ e.level
  | .log e => Level.error ≤ e.level ∧ s.logger.allows e.level e.module = true
  | .setLevel _ => False
  | .setFilter _ => False
  | .addConsole _ _ => False
  | .addFile _ _ _ => False

theorem isSettled_openLogFile {s : Session} (h : ∀ sink ∈ s.logger.sinks, sink.IsSettled)
    (setup : LogSetup) : ∀ sink ∈ (s.openLogFile setup).logger.sinks, sink.IsSettled := by
  rw [(s.openLogFile_spec setup).1, addFile?]
  cases hopen : LogFile.open? setup.file true setup.format s.world with
  | none => exact h
  | some opened =>
    obtain ⟨-, -, hpending, -⟩ := LogFile.open?_spec hopen
    exact List.forall_mem_append.mpr ⟨h, List.forall_mem_singleton.mpr hpending⟩

theorem isSettled_init (s : Session) (setup : LogSetup) :
    ∀ sink ∈ (s.init setup).logger.sinks, sink.IsSettled := by
  let s' := { s.closeSinks with logger := s.closeSinks.logger.configure setup }
  have hconsole : ∀ sink ∈ (s'.openConsole setup).logger.sinks, sink.IsSettled := by
    unfold openConsole
    split
    · refine List.forall_mem_append.mpr ⟨?_, List.forall_mem_singleton.mpr trivial⟩
      rw [Logger.sinks_configure]
      exact List.forall_mem_nil _
    · rw [Logger.sinks_configure]
      exact List.forall_mem_nil _
  exact isSettled_openLogFile hconsole setup

theorem isSettled_act {s : Session} {a : Action} (h : a.Settles s) :
    ∀ sink ∈ (s.act a).logger.sinks, sink.IsSettled := by
  cases a with
  | init setup => exact s.isSettled_init setup
  | flush => exact Sink.isSettled_each Sink.isSettled_flush s.logger.sinks s.world
  | closeSinks => exact List.forall_mem_nil _
  | write r => exact Sink.isSettled_each (Sink.isSettled_write h) s.logger.sinks s.world
  | record e =>
    have hwrite := Sink.isSettled_write (r := ⟨e, s.world.clock⟩) h
    exact Sink.isSettled_each hwrite s.logger.sinks s.world
  | log e =>
    have htrace : Level.trace ≤ e.level := Int.le_trans (by decide) h.1
    have hwrite := Sink.isSettled_write (r := ⟨e, s.world.clock⟩) h.1
    rw [act, log, if_pos ⟨htrace, h.2⟩]
    exact Sink.isSettled_each hwrite s.logger.sinks s.world
  | setLevel level => exact h.elim
  | setFilter spec => exact h.elim
  | addConsole colors format => exact h.elim
  | addFile path append format => exact h.elim

end Session

end TextDomain
