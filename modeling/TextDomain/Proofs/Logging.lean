import TextDomain.Proofs.Outline
import TextDomain.Session

/-!
# What logging leaves alone

Log records go to streams and to log files. So logging writes nothing to the standard output and
leaves the tree as it is, up to the contents of the files that are logged to
(`Session.undisturbed_log`). These are the files at `Session.logPlaces`, which stay the same.
-/

namespace TextDomain

/-- The place of the file that a sink writes to, if it writes to one. -/
def Sink.place? : Sink → Option Place
  | console _ _ _ => none
  | file f => some f.place

/-- The places of the files that are logged to. -/
def Session.logPlaces (s : Session) : List Place :=
  s.logger.sinks.filterMap Sink.place?

/-! ## Worlds -/

/-- The second world is the first up to the contents of files at some places and to streams other
than the standard output. -/
structure World.Undisturbed (places : List Place) (w w' : World) : Prop where
  outline_eq : w'.tree.outline = w.tree.outline
  find?_eq : ∀ place ∉ places, w'.tree.find? place = w.tree.find? place
  out_eq : w'.out = w.out

namespace World.Undisturbed

variable {places places' : List Place} {w w' w'' : World}

theorem refl (places : List Place) (w : World) : Undisturbed places w w :=
  ⟨rfl, fun _ _ => rfl, rfl⟩

theorem trans (h : Undisturbed places w w') (h' : Undisturbed places w' w'') :
    Undisturbed places w w'' where
  outline_eq := h'.outline_eq.trans h.outline_eq
  find?_eq place hplace := (h'.find?_eq place hplace).trans (h.find?_eq place hplace)
  out_eq := h'.out_eq.trans h.out_eq

theorem mono (hsub : places ⊆ places') (h : Undisturbed places w w') :
    Undisturbed places' w w' where
  outline_eq := h.outline_eq
  find?_eq place hplace := h.find?_eq place fun hmem => hplace (hsub hmem)
  out_eq := h.out_eq

theorem write (places : List Place) (w : World) (stream : Stream) (text : Bytes) :
    Undisturbed places w (w.write stream text) := by
  cases stream <;> exact ⟨rfl, fun _ _ => rfl, rfl⟩

end World.Undisturbed

/-! ## Sinks -/

@[simp] theorem LogFile.place_flush (f : LogFile) (w : World) : (f.flush w).1.place = f.place := by
  unfold flush
  split <;> rfl

theorem LogFile.undisturbed_flush (f : LogFile) (w : World) :
    World.Undisturbed [f.place] w (f.flush w).2 := by
  unfold flush
  split
  · exact .refl _ w
  · refine ⟨Tree.outline_setContent _ _ _, fun place hplace => ?_, rfl⟩
    exact Tree.find?_setContent_of_ne _ _ (List.ne_of_not_mem_cons hplace)

/-- Handing a record to a sink changes at most the file that the sink writes to. -/
theorem Sink.undisturbed_write (r : Record) (w : World) (sink : Sink) :
    (sink.write r w).1.place? = sink.place? ∧
      World.Undisturbed sink.place?.toList w (sink.write r w).2 := by
  cases sink with
  | console stream colors format => exact ⟨rfl, .write _ w stream _⟩
  | file f =>
    let f' := { f with pending := f.pending ++ r.render f.format w.clock none }
    by_cases hlevel : Level.error ≤ r.level
    · rw [write, LogFile.write, if_pos hlevel]
      exact ⟨congrArg some (f'.place_flush w), f'.undisturbed_flush w⟩
    · rw [write, LogFile.write, if_neg hlevel]
      exact ⟨rfl, .refl _ w⟩

/-- What holds of one sink holds of all of them, one after the other. -/
theorem Sink.undisturbed_each {action : World → Sink → Sink × World}
    (haction : ∀ w sink, (action w sink).1.place? = sink.place? ∧
      World.Undisturbed sink.place?.toList w (action w sink).2) :
    ∀ (sinks : List Sink) (w : World),
      (each action sinks w).1.filterMap place? = sinks.filterMap place? ∧
        World.Undisturbed (sinks.filterMap place?) w (each action sinks w).2
  | [], w => ⟨rfl, .refl _ w⟩
  | sink :: rest, w => by
    obtain ⟨hplace, hone⟩ := haction w sink
    obtain ⟨hplaces, hrest⟩ := undisturbed_each haction rest (action w sink).2
    have hsplit : (sink :: rest).filterMap place? =
        sink.place?.toList ++ rest.filterMap place? := by
      rw [List.filterMap_cons]
      cases sink.place? <;> rfl
    rw [hsplit]
    refine ⟨?_, (hone.mono (List.subset_append_left _ _)).trans
      (hrest.mono (List.subset_append_right _ _))⟩
    rw [each, List.filterMap_cons, hplace, hplaces]
    cases sink.place? <;> rfl

/-! ## Sessions -/

namespace Session

/-- The second session is the first up to what has been logged. -/
structure Undisturbed (s s' : Session) : Prop where
  logPlaces_eq : s'.logPlaces = s.logPlaces
  world : World.Undisturbed s.logPlaces s.world s'.world

namespace Undisturbed

variable {s s' s'' : Session}

theorem refl (s : Session) : Undisturbed s s :=
  ⟨rfl, .refl _ _⟩

theorem trans (h : Undisturbed s s') (h' : Undisturbed s' s'') : Undisturbed s s'' :=
  ⟨h'.logPlaces_eq.trans h.logPlaces_eq, h.world.trans (h.logPlaces_eq ▸ h'.world)⟩

end Undisturbed

theorem undisturbed_log (s : Session) (e : Event) : Undisturbed s (s.log e) := by
  unfold log
  split
  · obtain ⟨hplaces, hworld⟩ := Sink.undisturbed_each
      (Sink.undisturbed_write ⟨e, s.world.clock⟩) s.logger.sinks s.world
    exact ⟨hplaces, hworld⟩
  · exact .refl s

theorem undisturbed_logAll (s : Session) (events : List Event) :
    Undisturbed s (s.logAll events) := by
  induction events generalizing s with
  | nil => exact .refl s
  | cons e events ih => exact (s.undisturbed_log e).trans (ih (s.log e))

theorem undisturbed_complain (s : Session) (text : Bytes) : Undisturbed s (s.complain text) :=
  ⟨rfl, .write _ s.world .stderr text⟩

/-- The log file of a setup is added to append to. If that fails, there is at most a warning. -/
theorem openLogFile_spec (s : Session) (setup : LogSetup) :
    (s.openLogFile setup).logger =
        ((s.addFile? setup.file true setup.format).getD s).logger ∧
      (s.openLogFile setup).world.tree =
        ((s.addFile? setup.file true setup.format).getD s).world.tree := by
  unfold openLogFile
  split
  · rename_i hempty
    rw [hempty]
    exact ⟨rfl, rfl⟩
  · cases s.addFile? setup.file true setup.format <;> exact ⟨rfl, rfl⟩

end Session

end TextDomain
