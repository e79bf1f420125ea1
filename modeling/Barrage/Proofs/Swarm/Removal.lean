import Barrage.Host.Foundry
import Barrage.Swarm.History

/-!
# Bullets that leave

* `removed_iff_dropped`: a tick reports what it drops, but for the bullets whose patterns had vanished
  before it. No pattern does that in a swarm, so a host that inserts none that has vanished can go by the
  reports.
* `dropped_unreported`: a pattern that had vanished when it was inserted is dropped without a word.
-/

namespace Barrage

/-- A runner that a host can come by. -/
def Runner.Produced (r : Runner) : Prop := ∃ r₀ : Runner, r₀.New ∧ r₀.Reach r

/-- A tick drops the bullets that it reports as removed and those whose patterns had vanished before it,
and never one for both reasons; so what it reports is what it drops exactly if there were none of the
latter. There are none after any calls that insert no pattern that has vanished, and a host that goes by
its calls and by the reports then takes the right bullets to be in the swarm, in order. -/
theorem removed_iff_dropped {φ ρ α : Type} [RandomSource ρ] [BulletFactory φ α] (s : Swarm α)
    (frame : Frame) (factory : φ) (source : ρ) :
    let x := s.tick frame factory source
    ((s.ids ++ x.report.spawned).Nodup →
      x.swarm.ids = s.ids.filter (· ∉ x.report.removed ++ s.vanishedIds) ++ x.report.spawned ∧
      (∀ id, (id ∈ s.ids ∧ id ∉ x.swarm.ids) ↔ id ∈ x.report.removed ++ s.vanishedIds) ∧
      ((∀ id, (id ∈ s.ids ∧ id ∉ x.swarm.ids) ↔ id ∈ x.report.removed) ↔
        ∀ e ∈ s.entries, e.hasVanished = false)) ∧
    ∀ (P : Runner → Prop) (ids : List BulletId), s.Mirrored P ids →
      (∀ r, P r → r.state ≠ .vanished) →
      ids = s.ids ∧ ∀ e ∈ s.entries, e.hasVanished = false := by
  intro x
  refine ⟨fun hdistinct => ?_, fun P ids h hP => ?_⟩
  · obtain ⟨hnodup, -, hfresh⟩ := List.nodup_append.1 hdistinct
    have hids : x.swarm.ids
        = s.ids.filter (· ∉ x.report.removed ++ s.vanishedIds) ++ x.report.spawned :=
      Swarm.ids_tick hnodup frame factory source
    obtain ⟨honce, hthere⟩ := Swarm.removed_nodup hnodup frame factory source
    -- What is dropped was there and is not kept; what joined is new, so it does not count as kept.
    have hdropped (id : BulletId) :
        (id ∈ s.ids ∧ id ∉ x.swarm.ids) ↔ id ∈ x.report.removed ++ s.vanishedIds := by
      rw [hids, List.mem_append, List.mem_filter]
      constructor
      · rintro ⟨hid, hout⟩
        by_contra hkept
        exact hout (.inl ⟨hid, decide_eq_true hkept⟩)
      · intro hid
        refine ⟨hthere id hid, ?_⟩
        rintro (⟨-, hkept⟩ | hnew)
        · exact of_decide_eq_true hkept hid
        · exact hfresh id (hthere id hid) id hnew rfl
    refine ⟨hids, hdropped, ?_⟩
    rw [← Swarm.vanishedIds_eq_nil]
    constructor
    · intro hall
      refine List.eq_nil_iff_forall_not_mem.2 fun id hid => ?_
      have hremoved := (hall id).1 ((hdropped id).2 (List.mem_append_right _ hid))
      exact (List.nodup_append.1 honce).2.2 id hremoved id hid rfl
    · intro hnil id
      rw [hdropped id, hnil, List.append_nil]
  · obtain ⟨hids, -, hpresent⟩ := h.sound hP
    exact ⟨hids, hpresent⟩

/-- A pattern that vanishes at once. -/
def vanishing : Action Node := ⟨none, [.vanish]⟩

/-- A swarm of one bullet. -/
def Swarm.single (r : Runner) : Swarm (Option String) := empty.insert LabelledBullet.first (some r)

/-- A tick of length one of a swarm of such bullets. -/
def Swarm.quietTick (s : Swarm (Option String)) : Ticked Foundry Tape (Option String) :=
  s.tick ⟨1, ⟨0, -100⟩, 0⟩ .plain ⟨[], 0⟩

/-- The call for such a tick. -/
def Swarm.quietCall : Call Foundry Tape (Option String) := .tick ⟨1, ⟨0, -100⟩, 0⟩ .plain ⟨[], 0⟩

theorem Swarm.mirrored_single {P : Runner → Prop} {r : Runner} (h : P r) :
    (single r).Mirrored P [⟨1⟩] := by
  refine .call (φ := Foundry) (ρ := Tape) (.insert LabelledBullet.first (some r)) ⟨?_, ?_⟩ .empty
  · exact List.not_mem_nil
  · intro r' hr
    obtain rfl := Option.some.inj hr
    exact h

/-- The bullet of a new pattern that vanishes at once is reported. -/
theorem removed_iff_dropped_vanishing :
    ∃ r : Runner, Runner.ofAction (.bare .standard) vanishing [] = .ok r ∧
      (Swarm.single r).ids = [⟨1⟩] ∧
      (∀ id, (id ∈ (Swarm.single r).ids ∧ id ∉ (Swarm.single r).quietTick.swarm.ids) ↔
        id ∈ (Swarm.single r).quietTick.report.removed) ∧
      (Swarm.single r).quietTick.report.removed = [⟨1⟩] := by
  obtain ⟨r, hr⟩ : ∃ r, Runner.ofAction (.bare .standard) vanishing [] = .ok r := ⟨_, rfl⟩
  have hstart : r.state ≠ .vanished ∧ (Swarm.single r).quietTick.report.spawned = [] ∧
      (Swarm.single r).quietTick.report.removed = [⟨1⟩] := by
    cases hr
    decide
  obtain ⟨hpresent, hspawned, hremoved⟩ := hstart
  obtain ⟨hreported, hmirrored⟩ := removed_iff_dropped (Swarm.single r) ⟨1, ⟨0, -100⟩, 0⟩
    Foundry.plain (⟨[], 0⟩ : Tape)
  obtain ⟨hids, hnone⟩ := hmirrored (fun r => r.state ≠ .vanished) [⟨1⟩]
    (Swarm.mirrored_single hpresent) fun _ h => h
  have hnodup : ((Swarm.single r).ids ++ (Swarm.single r).quietTick.report.spawned).Nodup := by
    rw [hspawned, ← hids]
    decide
  obtain ⟨-, -, hiff⟩ := hreported hnodup
  exact ⟨r, hr, hids.symm, hiff.2 hnone, hremoved⟩

/-- If a pattern has vanished before it is inserted, the next tick drops its bullet and does not report
it, and its host takes it to be there for ever. -/
theorem dropped_unreported :
    (¬ ∀ (s : Swarm (Option String)) (ids : List BulletId), s.Mirrored Runner.Produced ids →
      ∀ (frame : Frame) (factory : Foundry) (source : Tape),
        (s.ids ++ (s.tick frame factory source).report.spawned).Nodup →
        ∀ id, (id ∈ s.ids ∧ id ∉ (s.tick frame factory source).swarm.ids) ↔
          id ∈ (s.tick frame factory source).report.removed) ∧
    ¬ ∀ (s : Swarm (Option String)) (ids : List BulletId), s.Mirrored Runner.Produced ids →
      ∀ id, id ∈ ids ↔ id ∈ s.ids := by
  obtain ⟨r₀, hr⟩ : ∃ r, Runner.ofAction (.bare .standard) vanishing [] = .ok r := ⟨_, rfl⟩
  have hstart : (Swarm.single r₀.quietTick.runner).ids = [⟨1⟩] ∧
      (Swarm.single r₀.quietTick.runner).quietTick.report = .nothing ∧
      (Swarm.single r₀.quietTick.runner).quietTick.swarm.ids = [] := by
    cases hr
    decide
  obtain ⟨hids, hreport, hdropped⟩ := hstart
  have hproduced : r₀.quietTick.runner.Produced :=
    ⟨r₀, .action hr, .call (.tick ⟨1, ⟨0, -100⟩, 0⟩ LabelledBullet.first Foundry.plain
      (⟨[], 0⟩ : Tape)) .refl⟩
  have hmirror := Swarm.mirrored_single hproduced
  have hnodup : ((Swarm.single r₀.quietTick.runner).ids
      ++ (Swarm.single r₀.quietTick.runner).quietTick.report.spawned).Nodup := by
    rw [hids, hreport]
    decide
  -- The tick drops the bullet; the report and so the host's own list know nothing of it.
  refine ⟨fun h => ?_, fun h => ?_⟩
  · have hremoved := (h _ _ hmirror _ _ _ hnodup ⟨1⟩).1 ⟨by simp [hids], by
      show _ ∉ (Swarm.single r₀.quietTick.runner).quietTick.swarm.ids
      simp [hdropped]⟩
    change _ ∈ (Swarm.single r₀.quietTick.runner).quietTick.report.removed at hremoved
    rw [hreport] at hremoved
    cases hremoved
  · have hafter := Swarm.Mirrored.call Swarm.quietCall hnodup hmirror
    have hstays : Swarm.quietCall.mirror (Swarm.single r₀.quietTick.runner) [⟨1⟩] = [⟨1⟩] := by
      show List.filter (· ∉ (Swarm.single r₀.quietTick.runner).quietTick.report.removed) [⟨1⟩]
        ++ (Swarm.single r₀.quietTick.runner).quietTick.report.spawned = [⟨1⟩]
      rw [hreport]
      rfl
    have hthere := (h _ _ hafter ⟨1⟩).1 (by simp [hstays])
    change _ ∈ (Swarm.single r₀.quietTick.runner).quietTick.swarm.ids at hthere
    rw [hdropped] at hthere
    cases hthere

end Barrage
