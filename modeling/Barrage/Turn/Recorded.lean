import Barrage.Host.Foundry
import Barrage.Turn.Lemmas

/-!
# A record does not show

No step can tell a host that keeps a record from one that does not: it has the same turn, and the
record is all that differs after it.

* `Turn.resolve_unrecorded`, `Turn.request_unrecorded`, `Turn.settle_unrecorded`: what the leaves
  evaluate.
* `FireStep.dispatch_unrecorded`, `MutationStep.dispatch_unrecorded`, `WaitStep.dispatch_unrecorded`: the
  leaves.
* `Sequence.advance_unrecorded`: the turn of a sequence.
-/

namespace Barrage

variable {φ ρ α : Type}

namespace Turn

variable (t : Turn (Recorder φ α) ρ α)

@[simp] theorem log_unrecorded (e : Event) : t.unrecorded.log e = (t.log e).unrecorded := rfl

@[simp] theorem spend_unrecorded : t.unrecorded.spend = t.spend.unrecorded := rfl

@[simp] theorem budget_unrecorded : t.unrecorded.budget = t.budget := rfl

@[simp] theorem mustYield_unrecorded : t.unrecorded.mustYield = t.mustYield := rfl

variable [RandomSource ρ] (stage : Stage) (params : Params)

theorem eval_unrecorded (f : Formula) :
    t.unrecorded.eval stage params f = (t.eval stage params f).map id unrecorded := rfl

theorem evalAll_unrecorded (fs : List Formula) :
    t.unrecorded.evalAll stage params fs = (t.evalAll stage params fs).map id unrecorded := by
  induction fs generalizing t with
  | nil => rfl
  | cons f rest ih =>
    rw [evalAll, evalAll, eval_unrecorded]
    rcases t.eval stage params f with ⟨e | x, t₁⟩
    · rfl
    · simp only [Prod.map, id]
      rw [ih]
      rcases t₁.evalAll stage params rest with ⟨e | xs, t₂⟩ <;> rfl

theorem resolve_unrecorded (scope : Scope) :
    t.unrecorded.resolve stage params scope
      = (t.resolve stage params scope).map id unrecorded := by
  rcases scope with _ | ⟨args, values, _ | _⟩
  · rfl
  · rw [resolve, resolve, evalAll_unrecorded]
    rcases t.evalAll stage params args with ⟨e | xs, t₁⟩ <;> rfl
  · rfl

theorem heading_unrecorded (spec : DirectionSpec) :
    t.unrecorded.heading stage params spec
      = (t.heading stage params spec).map id unrecorded := by
  rw [heading, heading, eval_unrecorded]
  rcases t.eval stage params spec.value with ⟨e | x, t₁⟩ <;> rfl

theorem pace_unrecorded (spec : SpeedSpec) :
    t.unrecorded.pace stage params spec = (t.pace stage params spec).map id unrecorded := by
  rw [pace, pace, eval_unrecorded]
  rcases t.eval stage params spec.value with ⟨e | x, t₁⟩ <;> rfl

theorem bulletParams_unrecorded (f : FireStep) :
    t.unrecorded.bulletParams stage params f
      = (t.bulletParams stage params f).map id unrecorded := by
  unfold bulletParams
  split
  · exact t.evalAll_unrecorded stage params _
  · rfl

theorem bulletHeading_unrecorded (inner : Params) (f : FireStep) :
    t.unrecorded.bulletHeading stage params inner f
      = (t.bulletHeading stage params inner f).map id unrecorded := by
  unfold bulletHeading
  split
  · exact t.heading_unrecorded stage params _
  · exact t.heading_unrecorded stage inner _
  · rfl

theorem bulletPace_unrecorded (inner : Params) (f : FireStep) :
    t.unrecorded.bulletPace stage params inner f
      = (t.bulletPace stage params inner f).map id unrecorded := by
  unfold bulletPace
  split
  · exact t.pace_unrecorded stage params _
  · exact t.pace_unrecorded stage inner _
  · rfl

theorem request_unrecorded (f : FireStep) :
    t.unrecorded.request stage params f = (t.request stage params f).map id unrecorded := by
  rw [request, request, bulletParams_unrecorded]
  rcases t.bulletParams stage params f with ⟨e | inner, t₁⟩
  · rfl
  simp only [Prod.map, id]
  rw [bulletHeading_unrecorded]
  rcases t₁.bulletHeading stage params inner f with ⟨e | heading, t₂⟩
  · rfl
  simp only [Prod.map, id]
  rw [bulletPace_unrecorded]
  rcases t₂.bulletPace stage params inner f with ⟨e | pace, t₃⟩ <;> rfl

theorem pauseFor_unrecorded (w : WaitStep) :
    t.unrecorded.pauseFor stage params w = (t.pauseFor stage params w).map id unrecorded := by
  unfold pauseFor
  split <;> rfl

theorem settle_unrecorded (m : MutationStep) :
    t.unrecorded.settle stage params m = (t.settle stage params m).map id unrecorded := by
  unfold settle
  split
  · rfl
  · rw [eval_unrecorded]
    rcases t.eval stage params m.term with ⟨e | duration, t₁⟩
    · rfl
    · simp only [Prod.map, id]
      rw [eval_unrecorded]
      rcases t₁.eval stage params m.steering.value with ⟨e | value, t₂⟩ <;> rfl

end Turn

variable [RandomSource ρ] (stage : Stage) (params : Params) (t : Turn (Recorder φ α) ρ α)

theorem FireStep.dispatch_unrecorded [BulletFactory φ α] (f : FireStep) :
    f.dispatch stage params t.unrecorded = (f.dispatch stage params t).unrecorded := by
  rw [dispatch, dispatch, Turn.log_unrecorded, Turn.resolve_unrecorded]
  rcases (t.log (.began .fire)).resolve stage params f.scope with ⟨e | ⟨scope, isNew⟩, t₁⟩
  · rfl
  simp only [Prod.map, id]
  rw [Turn.request_unrecorded]
  rcases t₁.request stage (scope.params params) { f with scope } with ⟨e | r, t₂⟩ <;> rfl

theorem MutationStep.dispatch_unrecorded (m : MutationStep) :
    m.dispatch stage params t.unrecorded = (m.dispatch stage params t).unrecorded := by
  rw [dispatch, dispatch, Turn.log_unrecorded, Turn.settle_unrecorded]
  rcases (t.log (.began .mutation)).settle stage params m with ⟨e | g, t₁⟩ <;> rfl

theorem WaitStep.dispatch_unrecorded (w : WaitStep) :
    w.dispatch stage params t.unrecorded = (w.dispatch stage params t).unrecorded := by
  rw [dispatch, dispatch, Turn.log_unrecorded, Turn.pauseFor_unrecorded]
  rcases (t.log (.began .wait)).pauseFor stage params w with ⟨e | d, t₁⟩ <;> rfl

omit [RandomSource ρ] in
theorem LoopStep.iterate_unrecorded {advance : Advance (Recorder φ α) ρ α}
    {advance' : Advance φ ρ α}
    (h : ∀ params s t, advance' params s t.unrecorded = (advance params s t).unrecorded)
    (rounds : Nat) (l : LoopStep Step) :
    iterate advance' params rounds l t.unrecorded
      = (iterate advance params rounds l t).unrecorded := by
  -- Each round is decided by the iterations that are left and by whether to yield, which both hosts
  -- see alike.
  induction rounds generalizing l t with
  | zero =>
    rw [iterate, iterate]
    split <;> rfl
  | succ rounds ih =>
    rw [iterate, iterate]
    simp only [Turn.spend_unrecorded, Turn.budget_unrecorded, h]
    split
    · rfl
    split
    · rfl
    rcases advance params l.body t.spend with ⟨body, t₁, _ | e⟩
    · by_cases hy : t₁.mustYield = true
      · simp only [Outcome.unrecorded, Turn.mustYield_unrecorded, hy, if_true]
      · simp only [Outcome.unrecorded, Turn.mustYield_unrecorded, hy]
        exact ih t₁ _
    · rfl

variable [BulletFactory φ α]

theorem Step.dispatch_unrecorded {advance : Advance (Recorder φ α) ρ α} {advance' : Advance φ ρ α}
    (h : ∀ params s t, advance' params s t.unrecorded = (advance params s t).unrecorded)
    (s : Step) :
    s.dispatch advance' stage params t.unrecorded
      = (s.dispatch advance stage params t).unrecorded := by
  cases s with
  | sequence s => exact congrArg (Outcome.map Step.sequence) (h params s t)
  | loop l =>
    rw [dispatch, dispatch, LoopStep.drain, LoopStep.drain]
    split
    · next n hl =>
      exact congrArg (Outcome.map Step.loop) (LoopStep.iterate_unrecorded params t h t.budget l)
    · next hl =>
      rw [Turn.eval_unrecorded]
      rcases t.eval stage params l.times with ⟨e | x, t₁⟩
      · rfl
      · exact congrArg (Outcome.map Step.loop)
          (LoopStep.iterate_unrecorded params t₁ h t₁.budget _)
  | fire f => exact congrArg (Outcome.map Step.fire) (f.dispatch_unrecorded stage params t)
  | mutation m =>
    exact congrArg (Outcome.map Step.mutation) (m.dispatch_unrecorded stage params t)
  | wait w => exact congrArg (Outcome.map Step.wait) (w.dispatch_unrecorded stage params t)
  | vanish _ => rfl

theorem Sequence.advanceWithin_unrecorded (levels : Nat) (s : Sequence Step) :
    s.advanceWithin stage levels params t.unrecorded
      = (s.advanceWithin stage levels params t).unrecorded := by
  induction levels generalizing params s t with
  | zero => rfl
  | succ levels ih =>
    rw [advanceWithin, advanceWithin]
    split
    · rfl
    rw [Turn.resolve_unrecorded]
    rcases t.resolve stage params s.scope with ⟨e | ⟨scope, isNew⟩, t₁⟩
    · rfl
    simp only [Prod.map, id]
    split
    · rfl
    · next step hc =>
      rw [Step.dispatch_unrecorded stage (scope.params params) t₁ fun params s t => ih params t s]
      rcases step.dispatch (advanceWithin stage levels) stage (scope.params params) t₁ with
        ⟨step', t₂, _ | e⟩ <;> rfl

/-- A sequence has the same turn whether or not its host keeps a record. -/
theorem Sequence.advance_unrecorded (s : Sequence Step) :
    s.advance stage params t.unrecorded = (s.advance stage params t).unrecorded :=
  s.advanceWithin_unrecorded stage params t s.height

end Barrage
