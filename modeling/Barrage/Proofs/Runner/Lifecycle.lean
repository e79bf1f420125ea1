import Barrage.Host.Foundry
import Barrage.Runner.Reach
import Barrage.Step.GivenUp
import Barrage.Turn.Acts

/-!
# The life of a runner

* `Runner.Settled`: how the steps of a runner stand in each of its states.
* `Runner.Settled.tick`, `Runner.settled_restart`, `Runner.Settled.cancel`: what a host does to a runner
  keeps it. `Runner.Reach.settled`: so it holds after every history.
* `runner_lifecycle`: a pattern is done exactly when its steps are; the leaf that is given up on is the
  active one; and a pattern that has ended does nothing more until it is restarted.
-/

namespace Barrage

namespace Runner

/-- How the steps of a runner stand: done or not if it is completed or running, and given up on at
their active leaf and nowhere else if it came to any other end. -/
structure Settled (r : Runner) : Prop where
  completed : r.state = .completed → r.root.isDone = true
  running : r.state = .running → r.root.children ≠ [] → r.root.isDone = false
  upheld : r.state = .running ∨ r.state = .completed →
    (Step.sequence r.root).Everywhere Step.Upheld
  givenUp : r.state ≠ .running → r.state ≠ .completed →
    ∃ q : Sequence Step, (Step.sequence q).Everywhere Step.Upheld ∧ r.root = q.finish

/-- A pattern at the start of a sequence that was not entered. -/
theorem Settled.of_start {r : Runner} (hs : r.state = .running) (hn : r.root.cursor = 0)
    (hu : (Step.sequence r.root).Everywhere Step.Upheld) : r.Settled where
  completed h := by
    rw [hs] at h
    cases h
  running _ hc := by
    simpa [Sequence.isDone, hn] using hc
  upheld _ := hu
  givenUp h _ := absurd hs h

/-- A pattern that was given up on. -/
theorem Settled.of_finish {r : Runner} {q : Sequence Step} (hr : r.root = q.finish)
    (hn : r.state ≠ .running) (hc : r.state ≠ .completed)
    (hu : (Step.sequence q).Everywhere Step.Upheld) : r.Settled where
  completed h := absurd h hc
  running h := absurd h hn
  upheld h := h.elim (absurd · hn) (absurd · hc)
  givenUp _ _ := ⟨q, hu, hr⟩

theorem New.settled {r : Runner} (h : r.New) : r.Settled := by
  obtain ⟨hblank, hroot⟩ := h.blank
  refine .of_start (by rw [hroot]; rfl) ?_ ?_
  · rw [← hblank, Sequence.blank_eq]
  · exact Step.everywhere_of_blank Step.local_upheld (congrArg Step.sequence hblank)

theorem settled_restart (r : Runner) : r.restart.Settled := by
  refine .of_start rfl ?_ ?_ <;> rw [root_restart]
  · exact r.root.cursor_reset
  · exact Step.everywhere_reset Step.local_upheld (.sequence r.root)

theorem Settled.cancel {r : Runner} (h : r.Settled) : r.cancel.Settled := by
  unfold Runner.cancel
  split
  · next hrun =>
    have hs := r.isRunning_iff.1 hrun
    exact .of_finish rfl (fun h => by cases h) (fun h => by cases h) (h.upheld (.inl hs))
  · exact h

section Ticks

variable {φ ρ α : Type}

theorem Settled.afterTurn (r : Runner) {o : Outcome (Sequence Step) (Turn φ ρ α)}
    (hu : (Step.sequence o.step).Everywhere Step.Upheld) : (r.afterTurn o).Settled := by
  unfold Runner.afterTurn
  cases o.error with
  | some e => exact .of_finish rfl (fun h => by cases h) (fun h => by cases h) hu
  | none =>
    by_cases hr : o.turn.removed = true
    · simp only [hr, if_true, stateAfter]
      exact .of_finish rfl (fun h => by cases h) (fun h => by cases h) hu
    · by_cases hd : o.step.isDone = true
      · simp only [hr, hd, stateAfter]
        exact ⟨fun _ => hd, fun h => (by cases h), fun _ => hu, fun _ h => absurd rfl h⟩
      · simp only [hr, hd, stateAfter]
        exact ⟨fun h => (by cases h), fun _ _ => by simpa using hd, fun _ => hu,
          fun h _ => absurd rfl h⟩

variable [RandomSource ρ] [BulletFactory φ α]

theorem Settled.tick {r : Runner} (h : r.Settled) (hv : r.root.Valid) (frame : Frame)
    (owner : Bullet α) (factory : φ) (source : ρ) :
    (r.tick frame owner factory source).runner.Settled := by
  rcases r.tick_cases frame owner factory source with ⟨-, hx⟩ | ⟨hrun, hd, hx⟩ | ⟨hrun, -, hx⟩ <;>
    rw [hx]
  · exact h
  · have hs := r.isRunning_iff.1 hrun
    exact ⟨fun _ => hd, fun h => (by cases h), fun _ => h.upheld (.inl hs), fun _ h => absurd rfl h⟩
  · have hs := r.isRunning_iff.1 hrun
    -- A turn gives up on nothing; only what the runner does after it may.
    obtain ⟨es, -, hacts⟩ :=
      Sequence.advance_acts ⟨r.builder, frame⟩ r.params hv (r.turn owner factory source)
    exact .afterTurn _ (hacts.everywhere Step.local_upheld (h.upheld (.inl hs)))

end Ticks

/-- How the steps of a runner stand after any history. -/
theorem Reach.settled {r₀ r : Runner} (h : r₀.Reach r) (h₀ : r₀.New) : r.Settled := by
  induction h with
  | refl => exact h₀.settled
  | @call _ _ _ _ _ r' c hr ih =>
    cases c with
    | tick frame owner factory source => exact ih.tick (hr.valid h₀) frame owner factory source
    | bind _ => exact ⟨ih.completed, ih.running, ih.upheld, ih.givenUp⟩
    | restart => exact r'.settled_restart
    | cancel => exact ih.cancel

/-- A pattern that has ended cannot be cancelled. -/
theorem cancel_of_stopped {r : Runner} (h : r.isRunning = false) : r.cancel = r :=
  if_neg (by simp [h])

end Runner

/-- After every history of a runner:
its steps are done if it is completed, and not done if it is running and has any;
no pause and no mutation was given up on if it is running or completed;
if it came to any other end, the steps are those it had with their active leaf given up on, and that
leaf says so exactly if it is a pause or a mutation;
a runner that has ended stays what it is until it is restarted or bound: a tick gives back the owner,
the factory and the random source as they were and makes nothing;
and a runner that is restarted is running, at its first step, with nothing given up on. -/
theorem runner_lifecycle {r₀ r : Runner} (h₀ : r₀.New) (h : r₀.Reach r) :
    ((r.state = .completed → r.root.isDone = true) ∧
      (r.state = .running → r.root.children ≠ [] → r.root.isDone = false)) ∧
    (r.state = .running ∨ r.state = .completed →
      (Step.sequence r.root).Everywhere Step.Upheld) ∧
    (r.state = .vanished ∨ r.state = .aborted ∨ r.state = .cancelled →
      ∃ q : Sequence Step, (Step.sequence q).Everywhere Step.Upheld ∧ r.root = q.finish ∧
        r.root.activePath = q.activePath ∧
        (r.root.isFinished = true ↔
          ∃ kind, r.root.activePath.getLast? = some kind ∧ (kind = .wait ∨ kind = .mutation))) ∧
    (r.state ≠ .running → ∀ (φ ρ α : Type) [RandomSource ρ] [BulletFactory φ α],
      (∀ (frame : Frame) (owner : Bullet α) (factory : φ) (source : ρ),
        r.tick frame owner factory source = ⟨r, owner, factory, source, [], false, none, #[]⟩) ∧
      ∀ c : Runner.Call φ ρ α, (c.run r).1 ≠ r → c = .restart ∨ ∃ id, c = .bind id) ∧
    (r.restart.state = .running ∧ r.restart.root.cursor = 0 ∧
      (Step.sequence r.restart.root).Everywhere Step.Upheld) := by
  have hs := h.settled h₀
  refine ⟨⟨hs.completed, hs.running⟩, hs.upheld, fun hend => ?_, fun hend φ ρ α _ _ => ?_, ?_⟩
  · obtain ⟨q, hq, hroot⟩ : ∃ q : Sequence Step,
        (Step.sequence q).Everywhere Step.Upheld ∧ r.root = q.finish := by
      apply hs.givenUp <;> intro hstate <;> simp [hstate] at hend
    refine ⟨q, hq, hroot, ?_, ?_⟩ <;> rw [hroot, q.activePath_finish]
    exact q.isFinished_finish
  · have hrun : r.isRunning = false := by simpa [Runner.isRunning] using hend
    refine ⟨fun _ _ _ _ => Runner.tick_of_stopped hrun, fun c hc => ?_⟩
    cases c with
    | tick frame owner factory source =>
      exact absurd (congrArg Tick.runner (Runner.tick_of_stopped hrun)) hc
    | bind id => exact .inr ⟨id, rfl⟩
    | restart => exact .inl rfl
    | cancel => exact absurd (Runner.cancel_of_stopped hrun) hc
  · refine ⟨rfl, ?_, r.settled_restart.upheld (.inl rfl)⟩
    rw [Runner.root_restart]
    exact r.root.cursor_reset

/-- A pattern that vanishes before it pauses. -/
def vanishingPause : Action Node := ⟨none, [.vanish, .wait (.number 1)]⟩

/-- The pause that such a pattern does not come to was given up on. -/
theorem runner_lifecycle_vanishing_pause :
    ∃ r₀ : Runner, Runner.ofAction (.bare .standard) vanishingPause [] = .ok r₀ ∧
      r₀.quietTick.runner.state = .vanished ∧
      r₀.quietTick.runner.root.activePath = [.wait] ∧
      r₀.quietTick.runner.root.isFinished = true := by
  obtain ⟨r₀, hr⟩ : ∃ r₀, Runner.ofAction (.bare .standard) vanishingPause [] = .ok r₀ := ⟨_, rfl⟩
  have hstate : r₀.quietTick.runner.state = .vanished ∧
      r₀.quietTick.runner.root.activePath = [.wait] := by
    cases hr
    decide
  obtain ⟨hvanished, hpath⟩ := hstate
  have hreach : r₀.Reach r₀.quietTick.runner :=
    .call (.tick ⟨1, ⟨0, -100⟩, 0⟩ LabelledBullet.first Foundry.plain (⟨[], 0⟩ : Tape)) .refl
  obtain ⟨-, -, hended, -⟩ := runner_lifecycle (.action hr) hreach
  obtain ⟨q, -, -, -, hfinished⟩ := hended (.inl hvanished)
  refine ⟨r₀, hr, hvanished, hpath, hfinished.2 ⟨.wait, ?_, .inl rfl⟩⟩
  rw [hpath]
  rfl

end Barrage
