import Barrage.Step.Part

/-!
# Giving up on a step

Three walks go along the cursors of a tree: the one that gives up on the active leaf, the one that asks
whether that was done, and the one that lists the kinds on the way. They end at the same leaf.

* `Step.pathBelow_finish`, `Sequence.activePath_finish`: giving up does not change the way.
* `Step.isFinished_finish`, `Sequence.isFinished_finish`: after it the active leaf was given up on if it
  is a timed step, whatever it was before.
* `Sequence.cursor_reset`: a sequence that is reset is at its first step.
-/

namespace Barrage

/-- Whether steps of a kind take time. -/
def StepKind.isTimed : StepKind → Bool
  | mutation | wait => true
  | sequence | loop | fire | vanish => false

theorem StepKind.isTimed_iff {kind : StepKind} :
    kind.isTimed = true ↔ kind = .wait ∨ kind = .mutation := by
  cases kind <;> simp [isTimed]

@[simp] theorem Step.kind_finish (s : Step) : s.finish.kind = s.kind := by
  cases s <;> rfl

@[simp] theorem Sequence.current?_finish (s : Sequence Step) :
    s.finish.current? = s.current?.map Step.finish := by
  rw [Sequence.finish_eq, Sequence.current?, Sequence.current?, List.getElem?_modify]
  simp

/-- Giving up on a step does not change the way to its active leaf. -/
@[simp] theorem Step.pathBelow_finish (s : Step) : s.finish.pathBelow = s.pathBelow := by
  induction s using Step.induction with
  | sequence s ih =>
    simp only [Step.finish, Step.pathBelow, Sequence.activePath_eq, Sequence.current?_finish]
    rcases hc : s.current? with _ | c
    · rfl
    · simpa using ih c (List.mem_of_getElem? hc)
  | loop l ih =>
    simp only [Step.finish, Step.pathBelow, LoopStep.activePath_eq, LoopStep.finish_eq] at ih ⊢
    exact ih
  | fire _ | mutation _ | wait _ | vanish _ => rfl

@[simp] theorem Sequence.activePath_finish (s : Sequence Step) :
    s.finish.activePath = s.activePath :=
  Step.pathBelow_finish (.sequence s)

/-- The last kind on the way from a step downward, the step itself included. -/
def Step.lastKind (s : Step) : StepKind := s.pathBelow.getLastD s.kind

theorem Sequence.getLast?_activePath (s : Sequence Step) :
    s.activePath.getLast? = s.current?.map Step.lastKind := by
  rw [Sequence.activePath_eq]
  rcases s.current? with _ | c
  · rfl
  · rw [Option.map_some, Option.getD_some, List.getLast?_cons, ← List.getLastD_eq_getLast?]
    rfl

/-- A step whose active leaf is given up on says so if that is a timed step. -/
theorem Step.isFinished_finish (s : Step) : s.finish.isFinished = s.lastKind.isTimed := by
  induction s using Step.induction with
  | sequence s ih =>
    simp only [Step.finish, Step.isFinished, Sequence.isFinished_eq, Sequence.current?_finish,
      Step.lastKind, Step.pathBelow, List.getLastD_eq_getLast?, Sequence.getLast?_activePath]
    rcases hc : s.current? with _ | c
    · rfl
    · exact ih c (List.mem_of_getElem? hc)
  | loop l ih =>
    simp only [Step.finish, Step.isFinished, LoopStep.isFinished_eq, LoopStep.finish_eq,
      Step.lastKind, Step.pathBelow, LoopStep.activePath_eq] at ih ⊢
    rw [ih]
    -- Without a way below it, neither the loop nor its body is a timed step.
    cases l.body.activePath <;> rfl
  | fire _ | mutation _ | wait _ | vanish _ => rfl

/-- A sequence whose active leaf is given up on says so exactly if that is a timed step. -/
theorem Sequence.isFinished_finish (s : Sequence Step) :
    s.finish.isFinished = true ↔
      ∃ kind, s.activePath.getLast? = some kind ∧ (kind = .wait ∨ kind = .mutation) := by
  rw [Sequence.isFinished_eq, Sequence.current?_finish, Sequence.getLast?_activePath]
  rcases s.current? with _ | c
  · simp
  · simp [Step.isFinished_finish, StepKind.isTimed_iff]

@[simp] theorem Sequence.cursor_reset (s : Sequence Step) : s.reset.cursor = 0 := by
  rw [Sequence.reset_eq]

end Barrage
