import Barrage.Runner.Lemmas
import Barrage.Turn.Spending

/-!
# The work of a tick

However loops nest and however often they should run, a tick ends, and the configured cap bounds what
happens in it.

* `Runner.tick_accounts`: the journal of a tick against its budget.
* `tick_work_bounded`: no tick starts more iterations, gives more leaves a turn or makes more bullets
  than its cap allows.
-/

namespace Barrage

variable {φ ρ α : Type} [RandomSource ρ] [BulletFactory φ α]

/-- The iterations of a tick come out of its budget, and its leaves and bullets out of these, but for
one. -/
theorem Runner.tick_accounts (r : Runner) (frame : Frame) (owner : Bullet α) (factory : φ)
    (source : ρ) :
    let k := r.tick frame owner factory source
    iterations k.journal.toList ≤ r.budget ∧ k.spawned.length = bulletsMade k.journal.toList ∧
      bulletsMade k.journal.toList ≤ leaves k.journal.toList ∧
      leaves k.journal.toList ≤ max 1 (iterations k.journal.toList) := by
  rcases r.tick_cases frame owner factory source with ⟨-, h⟩ | ⟨-, -, h⟩ | ⟨-, -, h⟩ <;>
    simp only [h]
  · exact ⟨Nat.zero_le _, rfl, Nat.le_refl _, Nat.zero_le _⟩
  · exact ⟨Nat.zero_le _, rfl, Nat.le_refl _, Nat.zero_le _⟩
  · obtain ⟨es, ha, hcreated, hleaves⟩ := Sequence.advance_spends ⟨r.builder, frame⟩ r.params r.root
      (r.turn owner factory source)
    have hj : (r.root.advance ⟨r.builder, frame⟩ r.params
        (r.turn owner factory source)).turn.journal.toList = es := ha.logs
    have hspawned := ha.spawned
    have hbudget := ha.budget
    simp only [give, hj]
    refine ⟨Nat.le.intro ((Nat.add_comm _ _).trans hbudget), ?_, hcreated, hleaves⟩
    rw [Array.length_toList, hspawned]
    exact Nat.zero_add _

/-- In one tick, over all loops of a pattern, no more iterations are started than the configured cap
allows, and neither more leaves have a turn nor more bullets are made, whether the tick fails or not.
Each iteration is taken from those that were left, so there are never fewer than none. A loop evaluates
its count if it was not entered, and then goes through its rounds one at a time; each leaves it fewer
iterations. -/
theorem tick_work_bounded :
    (∀ (r : Runner) (frame : Frame) (owner : Bullet α) (factory : φ) (source : ρ),
      let k := r.tick frame owner factory source
      let cap := max 1 r.builder.config.maxIterationsPerTick.toNat
      iterations k.journal.toList ≤ cap ∧ leaves k.journal.toList ≤ cap ∧ k.spawned.length ≤ cap) ∧
    (∀ (stage : Stage) (params : Params) (s : Sequence Step) (t : Turn φ ρ α),
      let t' := (s.advance stage params t).turn
      ∃ es, t.Logs t' es ∧ t'.budget + iterations es = t.budget) ∧
    (∀ (stage : Stage) (params : Params) (l : LoopStep Step) (t : Turn φ ρ α),
      let o := l.body.advance stage params t.spend
      let l' : LoopStep Step := { l with body := o.step }
      l.drain (fun outer s t => s.advance stage outer t) stage params t =
        (match l.target with
        | some _ => l.rounds stage params t
        | none =>
          match t.eval stage params l.times with
          | (.error e, t) => ⟨l, t, some (.evaluation e)⟩
          | (.ok times, t) =>
            { l with target := some times.count.toNat }.rounds stage params t) ∧
      (t.budget = 0 ∨ o.turn.budget < t.budget) ∧
      l.rounds stage params t =
        if l.isDone then ⟨l, t, none⟩
        else if t.budget = 0 then ⟨l, t.exhaust, none⟩
        else
          match o.error with
          | some e => ⟨l', o.turn, some e⟩
          | none =>
            if o.turn.mustYield then ⟨l'.settle, o.turn, none⟩
            else l'.settle.rounds stage params o.turn) := by
  refine ⟨fun r frame owner factory source => ?_, fun stage params s t => ?_,
    fun stage params l t => ⟨l.drain_eq stage params t, ?_, l.rounds_eq stage params t⟩⟩
  · have hcap : r.budget = max 1 r.builder.config.maxIterationsPerTick.toNat := Nat.max_comm _ _
    obtain ⟨hiterations, hspawned, hcreated, hleaves⟩ := r.tick_accounts frame owner factory source
    simp only
    omega
  · obtain ⟨es, ha, -⟩ := s.advance_spends stage params t
    exact ⟨es, ha.logs, ha.budget⟩
  · rcases Nat.eq_zero_or_pos t.budget with hb | hb
    · exact .inl hb
    · exact .inr (LoopStep.budget_round stage params l.body (Nat.ne_of_gt hb))

end Barrage
