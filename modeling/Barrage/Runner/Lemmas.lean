import Barrage.Runner.Tick
import Barrage.Turn.Carry
import Barrage.Turn.Journal

/-!
# Laws of ticks

* `Runner.tick_of_stopped`, `Runner.tick_of_isDone`, `Runner.tick_of_turn`: a tick of a pattern that
  has ended, of one whose steps are done, and of any other.
* `Runner.tick_cases`: these are all.
* `Runner.tick_steered`: a tick changes nothing of the owner but its heading and its speed.
* `Runner.journal_tick`: the journal of a tick is that of its turn.
* `Runner.root_afterTurn`: after a turn the steps are as the turn left them, or given up on.
* `Runner.afterTurn_of_running`: a pattern that is running after its turn.
* `Runner.vanished_tick`: a pattern vanishes in a tick that removed its owner.
-/

namespace Barrage

namespace Runner

variable {φ ρ α : Type} [RandomSource ρ] [BulletFactory φ α]
variable {r : Runner} {frame : Frame} {owner : Bullet α} {factory : φ} {source : ρ}

/-- A pattern that has ended does nothing. -/
theorem tick_of_stopped (h : r.isRunning = false) :
    r.tick frame owner factory source = r.rest owner factory source := by
  rw [tick, if_neg (by simp [h])]

/-- A pattern whose steps are done has ended. -/
theorem tick_of_isDone (h : r.isRunning = true) (hd : r.root.isDone = true) :
    r.tick frame owner factory source
      = { r.bindTo owner.id with state := .completed }.rest owner factory source := by
  rw [tick, if_pos h]
  exact if_pos hd

/-- Any other pattern has a turn. -/
theorem tick_of_turn (h : r.isRunning = true) (hd : r.root.isDone = false) :
    r.tick frame owner factory source
      = (r.bindTo owner.id).give
          (r.root.advance ⟨r.builder, frame⟩ r.params (r.turn owner factory source)) := by
  rw [tick, if_pos h]
  exact if_neg (by simp [bindTo, hd])

variable (r frame owner factory source)

omit [RandomSource ρ] [BulletFactory φ α] in
theorem isRunning_iff : r.isRunning = true ↔ r.state = .running := beq_iff_eq

/-- What a tick does. -/
theorem tick_cases :
    (r.isRunning = false ∧ r.tick frame owner factory source = r.rest owner factory source) ∨
    (r.isRunning = true ∧ r.root.isDone = true ∧
      r.tick frame owner factory source
        = { r.bindTo owner.id with state := .completed }.rest owner factory source) ∨
    (r.isRunning = true ∧ r.root.isDone = false ∧
      r.tick frame owner factory source
        = (r.bindTo owner.id).give
            (r.root.advance ⟨r.builder, frame⟩ r.params (r.turn owner factory source))) := by
  rcases h : r.isRunning with _ | _
  · exact .inl ⟨rfl, tick_of_stopped h⟩
  · rcases hd : r.root.isDone with _ | _
    · exact .inr (.inr ⟨rfl, rfl, tick_of_turn h hd⟩)
    · exact .inr (.inl ⟨rfl, rfl, tick_of_isDone h hd⟩)

/-- A tick changes nothing of the owner but its heading and its speed. -/
theorem tick_steered : owner.Steered (r.tick frame owner factory source).owner := by
  rcases r.tick_cases frame owner factory source with ⟨-, h⟩ | ⟨-, -, h⟩ | ⟨-, -, h⟩ <;> rw [h]
  · exact .refl owner
  · exact .refl owner
  · exact Sequence.advance_steered ⟨r.builder, frame⟩ r.params r.root (r.turn owner factory source)

/-- The journal of a tick is that of its turn, if it has one. -/
theorem journal_tick :
    (r.tick frame owner factory source).journal.toList = [] ∨
      r.isRunning = true ∧ (r.turn owner factory source).Logs
        (r.root.advance ⟨r.builder, frame⟩ r.params (r.turn owner factory source)).turn
        (r.tick frame owner factory source).journal.toList := by
  rcases r.tick_cases frame owner factory source with ⟨-, h⟩ | ⟨-, -, h⟩ | ⟨hrun, -, h⟩ <;> rw [h]
  · exact .inl rfl
  · exact .inl rfl
  · exact .inr ⟨hrun, rfl⟩

variable {r} {o : Outcome (Sequence Step) (Turn φ ρ α)}

omit [RandomSource ρ] [BulletFactory φ α] in
/-- After a turn the steps are as the turn left them, or given up on. -/
theorem root_afterTurn (r : Runner) (o : Outcome (Sequence Step) (Turn φ ρ α)) :
    (r.afterTurn o).root = o.step ∨ (r.afterTurn o).root = o.step.finish := by
  unfold afterTurn
  split
  · exact .inr rfl
  · simp only
    split
    · exact .inr rfl
    · exact .inl rfl

omit [RandomSource ρ] [BulletFactory φ α] in
/-- A pattern that is running after its turn had no error, its owner is there and it has steps to do. -/
theorem afterTurn_of_running (h : (r.afterTurn o).isRunning = true) :
    o.error = none ∧ o.turn.removed = false ∧ o.step.isDone = false ∧
      r.afterTurn o = { r with root := o.step, last := o.turn.last, state := .running } := by
  unfold afterTurn at h ⊢
  cases he : o.error with
  | some e =>
    simp only [he] at h
    cases h
  | none =>
    simp only [he, isRunning, beq_iff_eq, stateAfter] at h ⊢
    by_cases hr : o.turn.removed = true
    · rw [if_pos hr] at h
      cases h
    · by_cases hd : o.step.isDone = true
      · rw [if_neg hr, if_pos hd] at h
        cases h
      · simp [hr, hd]

/-- A running pattern vanishes in a tick that ends without an error and removed its owner. -/
theorem vanished_tick {r : Runner} (h : r.isRunning = true) (frame : Frame) (owner : Bullet α)
    (factory : φ) (source : ρ) :
    (r.tick frame owner factory source).runner.state = .vanished ↔
      (r.tick frame owner factory source).failure = none ∧
        (r.tick frame owner factory source).removed = true := by
  by_cases hd : r.root.isDone = true
  · simp [tick_of_isDone h hd, rest]
  · rw [tick_of_turn h (by simpa using hd)]
    unfold give afterTurn
    cases (r.root.advance ⟨r.builder, frame⟩ r.params (r.turn owner factory source)).error with
    | some e => simp
    | none =>
      simp only [stateAfter]
      split
      · next hr => simp [hr]
      · next hr => split <;> simp [hr]

end Runner

end Barrage
