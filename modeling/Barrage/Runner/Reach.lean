import Barrage.Runner.Lemmas
import Barrage.Step.BuildLemmas
import Barrage.Turn.Blank
import Barrage.Turn.History
import Barrage.Turn.Valid

/-!
# What histories of runners keep

* `Runner.New.blank`: a runner that was built is at the start of a blank sequence.
* `Runner.root_restart`: one that is restarted is at the start of its sequence.
* `Runner.Reach.blank`: no history changes what a runner was when it was built.
* `Runner.Reach.valid`: no history leads to steps that are not valid.
-/

namespace Barrage

namespace Runner

/-- A runner that was built is at the start of a blank sequence. -/
theorem New.blank {r : Runner} (h : New r) :
    r.root.blank = r.root ∧ r = ofRoot r.builder r.params r.root := by
  have haction {b : Builder} {a : Action Node} {params : Params} {r : Runner}
      (h : ofAction b a params = .ok r) :
      r.root.blank = r.root ∧ r = ofRoot r.builder r.params r.root := by
    obtain ⟨s, hs, rfl⟩ := Except.map_ok h
    exact ⟨Builder.blank_action hs, rfl⟩
  cases h with
  | label h =>
    rw [ofLabel] at h
    split at h
    · exact haction h
    · cases h
  | action h => exact haction h
  | bullet h =>
    obtain ⟨s, hs, rfl⟩ := Except.map_ok h
    exact ⟨Builder.blank_bullet hs, rfl⟩

/-- A runner that is restarted is at the start of its sequence. -/
theorem root_restart (r : Runner) : r.restart.root = r.root.reset := by
  simp only [restart]
  split
  · exact r.root.reset_finish
  · rfl

variable {φ ρ α : Type} [RandomSource ρ] [BulletFactory φ α]

omit [RandomSource ρ] [BulletFactory φ α] in
/-- What a runner was when it was built is what it is after a turn that keeps its sequence blank. -/
theorem afterTurn_keeps (r : Runner) {o : Outcome (Sequence Step) (Turn φ ρ α)}
    (h : o.step.blank = r.root.blank) :
    (r.afterTurn o).builder = r.builder ∧ (r.afterTurn o).params = r.params ∧
      (r.afterTurn o).root.blank = r.root.blank := by
  have hkept : (r.afterTurn o).builder = r.builder ∧ (r.afterTurn o).params = r.params := by
    unfold afterTurn
    split <;> exact ⟨rfl, rfl⟩
  refine ⟨hkept.1, hkept.2, ?_⟩
  rcases r.root_afterTurn o with hr | hr <;> rw [hr]
  · exact h
  · exact (Sequence.blank_finish _).trans h

/-- What no tick of a runner changes. -/
theorem tick_keeps (r : Runner) (frame : Frame) (owner : Bullet α) (factory : φ) (source : ρ) :
    (r.tick frame owner factory source).runner.builder = r.builder ∧
      (r.tick frame owner factory source).runner.params = r.params ∧
      (r.tick frame owner factory source).runner.root.blank = r.root.blank := by
  rcases r.tick_cases frame owner factory source with ⟨-, h⟩ | ⟨-, -, h⟩ | ⟨-, -, h⟩ <;> rw [h]
  · exact ⟨rfl, rfl, rfl⟩
  · exact ⟨rfl, rfl, rfl⟩
  · exact afterTurn_keeps (r.bindTo owner.id) (Sequence.blank_advance ..)

/-- No history changes what a runner was when it was built. -/
theorem Reach.blank {r r' : Runner} (h : r.Reach r') :
    r'.builder = r.builder ∧ r'.params = r.params ∧ r'.root.blank = r.root.blank := by
  induction h with
  | refl => exact ⟨rfl, rfl, rfl⟩
  | @call _ _ _ _ _ r' c _ ih =>
    obtain ⟨hb, hp, hs⟩ := ih
    cases c with
    | tick frame owner factory source =>
      obtain ⟨hb', hp', hs'⟩ := tick_keeps r' frame owner factory source
      exact ⟨hb'.trans hb, hp'.trans hp, hs'.trans hs⟩
    | bind _ => exact ⟨hb, hp, hs⟩
    | restart =>
      refine ⟨hb, hp, ?_⟩
      simp only [Call.run, restart]
      split
      · simpa using hs
      · simpa using hs
    | cancel =>
      simp only [Call.run, cancel]
      split
      · exact ⟨hb, hp, (Sequence.blank_finish _).trans hs⟩
      · exact ⟨hb, hp, hs⟩

omit [RandomSource ρ] [BulletFactory φ α] in
theorem afterTurn_valid (r : Runner) {o : Outcome (Sequence Step) (Turn φ ρ α)}
    (h : o.step.Valid) : (r.afterTurn o).root.Valid := by
  rcases r.root_afterTurn o with hr | hr <;> rw [hr]
  · exact h
  · exact h.finish

/-- A tick keeps the steps of a pattern valid. -/
theorem tick_valid {r : Runner} (h : r.root.Valid) (frame : Frame) (owner : Bullet α) (factory : φ)
    (source : ρ) : (r.tick frame owner factory source).runner.root.Valid := by
  rcases r.tick_cases frame owner factory source with ⟨-, hx⟩ | ⟨-, -, hx⟩ | ⟨-, -, hx⟩ <;> rw [hx]
  · exact h
  · exact h
  · exact afterTurn_valid _ (Sequence.advance_valid _ _ h _)

/-- No history leads to steps that are not valid. -/
theorem Reach.valid {r₀ r : Runner} (h : r₀.Reach r) (h₀ : New r₀) : r.root.Valid := by
  induction h with
  | refl => exact (Sequence.Pristine.of_blank h₀.blank.1).valid
  | @call _ _ _ _ _ r' c _ ih =>
    cases c with
    | tick frame owner factory source => exact tick_valid ih frame owner factory source
    | bind _ => exact ih
    | restart =>
      rw [Call.run, root_restart]
      exact r'.root.pristine_reset.valid
    | cancel =>
      simp only [Call.run, cancel]
      split
      · exact ih.finish
      · exact ih

end Runner

end Barrage
