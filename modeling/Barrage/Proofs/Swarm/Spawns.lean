import Barrage.Swarm.Recorded

/-!
# Bullets that are made

* `spawns_join`: each bullet that the factory gave in a tick is handed over once, whatever way the tick
  ends, and joins the swarm once.
-/

namespace Barrage

variable {φ ρ α : Type} [RandomSource ρ] [BulletFactory φ α]

/-- The calls to the factory in a tick are told by a host that keeps a record, which no pattern and no
swarm can tell from one that does not.

However the tick of a pattern ends, the bullets it hands over are those calls in order, each with the
definition, the heading and the speed that the call was made with.

In a tick of a swarm each entry has its tick in a pass, and keeps its own bullet; what they made in it are
the bullets of the calls. After it come first the entries of the pass whose patterns have not vanished, in
order, and then the bullets of the calls, in order; the report lists these. The runner of a new entry has its own bullet for an owner. Each new bullet was made by the
pattern of an entry, and if its own pattern could not be built the report says so under its id. -/
theorem spawns_join :
    (∀ (r : Runner) (frame : Frame) (owner : Bullet α) (factory : φ) (source : ρ),
      (r.tick frame owner (Recorder.start factory) source).unrecorded
          = r.tick frame owner factory source ∧
        (r.tick frame owner factory source).spawned.map Spawn.creation
          = r.creations frame owner factory source) ∧
    ∀ (s : Swarm α) (frame : Frame) (factory : φ) (source : ρ),
      let p := Swarm.pass frame s.entries factory source
      (s.tick frame (Recorder.start factory) source).unrecorded = s.tick frame factory source ∧
      List.Forall₂ (fun e e' => e.TicksTo φ ρ frame e' ∧ e.bullet.Steered e'.bullet)
        s.entries p.entries ∧
      p.spawned.map Spawn.creation = s.creations frame factory source ∧
      (s.tick frame factory source).swarm.entries
        = p.entries.filter (fun e => !e.hasVanished) ++ p.spawned.map Spawn.entry ∧
      (s.tick frame factory source).report.spawned
        = (s.creations frame factory source).map (·.bullet.id) ∧
      (∀ e ∈ p.spawned.map Spawn.entry, ∀ r, e.runner = some r → r.owner = some e.bullet.id) ∧
      ∀ w ∈ p.spawned, (∃ e ∈ s.entries, ∃ r, e.runner = some r ∧ w.IsMade r.builder) ∧
        ∀ x, w.fault = some x →
          (w.bullet.id, x) ∈ (s.tick frame factory source).report.aborted := by
  refine ⟨fun r frame owner factory source => ?_, fun s frame factory source => ?_⟩
  · exact ⟨(r.tick_unrecorded frame owner (Recorder.start factory) source).symm,
      r.spawned_eq_creations frame owner factory source⟩
  · intro p
    have hrecord := (s.tick_unrecorded frame (Recorder.start factory) source).symm
    obtain ⟨hcreations, hmade⟩ := s.spawned_eq_creations frame factory source
    refine ⟨hrecord, ?_, hcreations, s.entries_tick frame factory source, ?_, ?_,
      fun w hw => ⟨hmade w hw, fun x hx => ?_⟩⟩
    · exact (Swarm.pass_ticks frame s.entries factory source).imp fun e e' h => ⟨h, h.steered⟩
    · rw [s.spawned_tick, ← hcreations, List.map_map]
      rfl
    · intro e he r hr
      obtain ⟨w, -, rfl⟩ := List.mem_map.1 he
      obtain ⟨r', -, rfl⟩ := Option.map_eq_some_iff.1 hr
      rfl
    · rw [s.aborted_tick]
      refine List.mem_append_right _ (List.mem_flatMap.2 ⟨w, hw, ?_⟩)
      rw [hx]
      exact List.mem_singleton.2 rfl

end Barrage
