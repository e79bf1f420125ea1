import Barrage.Runner.Lemmas
import Barrage.Swarm
import Mathlib.Data.List.Forall2

/-!
# Laws of swarms

* `Swarm.ids`: whose bullets are in a swarm.
* `Entry.tick_cases`: an entry has a tick if its pattern is running, and stays as it is if not.
* `Entry.TicksTo`, `Swarm.pass_ticks`: in a pass each entry has its tick, in whatever state the host is
  by then. `Entry.TicksTo.steered`: it keeps its bullet.
* `Entry.tick_of_vanished`, `Entry.removed_tick`: a tick reports a bullet as removed if its pattern
  vanishes in it, and not if it had vanished before.
* `Swarm.entries_tick`, `Swarm.spawned_tick`, `Swarm.removed_tick`, `Swarm.aborted_tick`: what a tick of
  a swarm leaves and reports, from its pass.
-/

namespace Barrage

namespace Report

@[simp] theorem spawned_append (a b : Report) : (a.append b).spawned = a.spawned ++ b.spawned := rfl

@[simp] theorem removed_append (a b : Report) : (a.append b).removed = a.removed ++ b.removed := rfl

@[simp] theorem aborted_append (a b : Report) : (a.append b).aborted = a.aborted ++ b.aborted := rfl

end Report

variable {φ ρ α : Type}

/-- The entry of a bullet that was made. -/
def Spawn.entry (w : Spawn α) : Entry α := ⟨w.bullet, w.runner.map (·.bind w.bullet.id)⟩

/-- Whose bullets are in a swarm. -/
def Swarm.ids (s : Swarm α) : List BulletId := s.entries.map (·.bullet.id)

namespace Entry

/-- The pattern of an entry has more to do. -/
def isRunning (e : Entry α) : Bool := e.runner.any (·.isRunning)

theorem report_spawned (id : BulletId) (t : Tick φ ρ α) : (report id t).spawned = [] := by
  unfold report
  split
  · rfl
  · split
    · rfl
    · split <;> rfl

theorem report_removed (id : BulletId) (t : Tick φ ρ α) :
    (report id t).removed = if t.failure = none ∧ t.removed = true then [id] else [] := by
  unfold report
  cases t.failure with
  | some x => simp [Report.nothing]
  | none =>
    by_cases hr : t.removed = true
    · simp [hr]
    · simp only [hr, Bool.false_eq_true, if_false, and_false]
      split <;> rfl

variable [RandomSource ρ] [BulletFactory φ α]

/-- An entry has a tick if its pattern is running, and stays as it is if not. -/
theorem tick_cases (frame : Frame) (e : Entry α) (factory : φ) (source : ρ) :
    (e.isRunning = false ∧ e.tick frame factory source = (e, factory, source, [], .nothing)) ∨
    ∃ r, e.runner = some r ∧ r.isRunning = true ∧
      let t := r.tick frame e.bullet factory source
      e.tick frame factory source
        = (⟨t.owner, some t.runner⟩, t.factory, t.source, t.spawned, report e.bullet.id t) := by
  unfold tick
  cases hr : e.runner with
  | none => exact .inl ⟨by simp [isRunning, hr], rfl⟩
  | some r =>
    by_cases hrun : r.isRunning = true
    · exact .inr ⟨r, rfl, hrun, by simp only [hrun, if_true]⟩
    · exact .inl ⟨by simp [isRunning, hr, hrun], by simp only [hrun]; rfl⟩

/-- An entry whose pattern has vanished has no tick. -/
theorem tick_of_vanished {e : Entry α} (h : e.hasVanished = true) (frame : Frame) (factory : φ)
    (source : ρ) : e.tick frame factory source = (e, factory, source, [], .nothing) := by
  rcases e.tick_cases frame factory source with ⟨-, hx⟩ | ⟨r, hr, hrun, -⟩
  · exact hx
  · simp [hasVanished, hr, r.isRunning_iff.1 hrun] at h

/-- A tick reports a bullet as removed if its pattern vanishes in it. -/
theorem removed_tick {e : Entry α} (h : e.hasVanished = false) (frame : Frame) (factory : φ)
    (source : ρ) :
    (e.tick frame factory source).2.2.2.2.removed
      = if (e.tick frame factory source).1.hasVanished = true then [e.bullet.id] else [] := by
  rcases e.tick_cases frame factory source with ⟨-, hx⟩ | ⟨r, -, hrun, hx⟩ <;> rw [hx]
  · simp [h, Report.nothing]
  · have hv := Runner.vanished_tick hrun frame e.bullet factory source
    simp only [report_removed, ← hv, hasVanished, Option.any_some, beq_iff_eq]

/-- An entry and what its tick makes of it, in some state of the host. -/
def TicksTo (φ ρ : Type) [RandomSource ρ] [BulletFactory φ α] (frame : Frame) (e e' : Entry α) :
    Prop :=
  ∃ (factory : φ) (source : ρ), e' = (e.tick frame factory source).1

/-- An entry keeps its bullet, which is only steered. -/
theorem TicksTo.steered {frame : Frame} {e e' : Entry α} (h : TicksTo φ ρ frame e e') :
    e.bullet.Steered e'.bullet := by
  obtain ⟨factory, source, rfl⟩ := h
  rcases e.tick_cases frame factory source with ⟨-, hx⟩ | ⟨r, -, -, hx⟩ <;> rw [hx]
  · exact .refl e.bullet
  · exact r.tick_steered frame e.bullet factory source

end Entry

namespace Swarm

/-! ## Bullets that join -/

theorem entries_foldl_join (spawns : List (Spawn α)) (s : Swarm α) :
    (spawns.foldl join s).entries = s.entries ++ spawns.map Spawn.entry := by
  induction spawns generalizing s with
  | nil => exact (List.append_nil _).symm
  | cons w rest ih =>
    rw [List.foldl_cons, ih]
    exact List.append_assoc s.entries [w.entry] _

/-- What the joining of several bullets reports. -/
theorem foldr_joinReport (spawns : List (Spawn α)) :
    (spawns.map joinReport).foldr Report.append .nothing
      = ⟨spawns.map (·.bullet.id), [], [],
          spawns.flatMap fun w => w.fault.toList.map fun x => (w.bullet.id, x)⟩ := by
  induction spawns with
  | nil => rfl
  | cons w rest ih =>
    rw [List.map_cons, List.foldr_cons, ih]
    rfl

/-! ## Ticks -/

variable [RandomSource ρ] [BulletFactory φ α]

/-- In a pass each entry has its tick. -/
theorem pass_ticks (frame : Frame) (entries : List (Entry α)) (factory : φ) (source : ρ) :
    List.Forall₂ (Entry.TicksTo φ ρ frame) entries (pass frame entries factory source).entries := by
  induction entries generalizing factory source with
  | nil => exact .nil
  | cons e rest ih => exact .cons ⟨factory, source, rfl⟩ (ih _ _)

theorem pass_report_spawned (frame : Frame) (entries : List (Entry α)) (factory : φ) (source : ρ) :
    (pass frame entries factory source).report.spawned = [] := by
  induction entries generalizing factory source with
  | nil => rfl
  | cons e rest ih =>
    show (e.tick frame factory source).2.2.2.2.spawned ++ _ = []
    rw [ih, List.append_nil]
    rcases e.tick_cases frame factory source with ⟨-, hx⟩ | ⟨r, -, -, hx⟩ <;> rw [hx]
    · rfl
    · exact Entry.report_spawned _ _

section Tick

variable (s : Swarm α) (frame : Frame) (factory : φ) (source : ρ)

/-- After a tick come first those that had not vanished after their ticks, then those that were
made. -/
theorem entries_tick :
    (s.tick frame factory source).swarm.entries
      = (pass frame s.entries factory source).entries.filter (fun e => !e.hasVanished)
        ++ (pass frame s.entries factory source).spawned.map Spawn.entry :=
  entries_foldl_join _ _

theorem spawned_tick :
    (s.tick frame factory source).report.spawned
      = (pass frame s.entries factory source).spawned.map (·.bullet.id) := by
  unfold tick
  simp only [foldr_joinReport, Report.spawned_append, pass_report_spawned, List.nil_append]

theorem removed_tick :
    (s.tick frame factory source).report.removed
      = (pass frame s.entries factory source).report.removed := by
  unfold tick
  simp only [foldr_joinReport, Report.removed_append, List.append_nil]

theorem aborted_tick :
    (s.tick frame factory source).report.aborted
      = (pass frame s.entries factory source).report.aborted
        ++ (pass frame s.entries factory source).spawned.flatMap fun w =>
            w.fault.toList.map fun x => (w.bullet.id, x) := by
  unfold tick
  simp only [foldr_joinReport, Report.aborted_append]

end Tick

end Swarm

end Barrage
