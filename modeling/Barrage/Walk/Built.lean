import Barrage.Step.BuildLemmas
import Barrage.Walk.Residue

/-!
# Walks of built steps

* `Builder.walk_stepBy`: the walk of the step of a node is the walk of the node.
* `Builder.walk_action`: the walk of the sequence of an action is the walk of the action.
-/

namespace Barrage

namespace Builder

variable {φ ρ α : Type} [RandomSource ρ] [BulletFactory φ α] {b : Builder} {scene : Scene α}

theorem walk_fireStep (hb : scene.builder = b) {fire : Fire Node} {scope : Scope} {f : FireStep}
    (h : b.fireStep fire scope = .ok f) (params : Params) :
    ((Step.fire f).walk scene params : Walk φ ρ α Unit)
      = scope.derive scene params >>= fun values => scene.fire values fire := by
  subst hb
  rw [fireStep] at h
  split at h
  · next definition hd =>
    cases h
    simp only [Step.walk, Scene.fire, hd]
  · next r hd =>
    split at h
    · next definition hr =>
      cases h
      simp only [Step.walk, Scene.fire, hd, hr]
    · cases h

/-- Sequences of actions are walked as the actions are, once their scope is derived. -/
def Walks (scene : Scene α) (enter : Action Node → Scope → Except StepError (Sequence Step))
    (walk : Params → Action Node → Walk φ ρ α Unit) : Prop :=
  ∀ a scope s, enter a scope = .ok s →
    (a.children.isEmpty = true → ∀ values, walk values a = pure ()) ∧
    ∀ params, s.walk scene params =
      if a.children.isEmpty then pure ()
      else scope.derive scene params >>= fun values => walk values a

variable {enter : Action Node → Scope → Except StepError (Sequence Step)}
  {walk : Params → Action Node → Walk φ ρ α Unit}

theorem Walks.shared (hw : Walks scene enter walk) {a : Action Node} {s : Sequence Step}
    (h : enter a .shared = .ok s) (params : Params) : s.walk scene params = walk params a := by
  obtain ⟨hempty, hwalk⟩ := hw a .shared s h
  rw [hwalk]
  split
  · next he => rw [hempty he]
  · rw [Scope.derive, pure_bind]

theorem Walks.follow (hw : Walks scene enter walk) (hb : scene.builder = b) {r : Reference}
    {s : Sequence Step} (h : b.follow enter r = .ok s) (params : Params) :
    s.walk scene params = scene.follow walk params r := by
  subst hb
  rw [Builder.follow] at h
  split at h
  · next a ha =>
    rw [(hw _ _ _ h).2, Scene.follow, ha]
    rfl
  · cases h

/-- The walk of the step of a node is the walk of the node. -/
theorem walk_stepBy (hw : Walks scene enter walk) (hb : scene.builder = b) {n : Node} {step : Step}
    (h : b.stepBy enter n = .ok step) (params : Params) :
    step.walk scene params = scene.visit walk params n := by
  unfold stepBy at h
  split at h
  · obtain ⟨s, hs, rfl⟩ := Except.map_ok h
    exact hw.shared hs params
  · obtain ⟨s, hs, rfl⟩ := Except.map_ok h
    exact hw.follow hb hs params
  · obtain ⟨s, hs, rfl⟩ := Except.map_ok h
    rw [Step.walk, LoopStep.walk_eq, Scene.visit, hw.shared hs params]
  · obtain ⟨s, hs, rfl⟩ := Except.map_ok h
    rw [Step.walk, LoopStep.walk_eq, Scene.visit, hw.follow hb hs params]
  · obtain ⟨f, hf, rfl⟩ := Except.map_ok h
    rw [walk_fireStep hb hf, Scope.derive, pure_bind, Scene.visit]
  · next r =>
    split at h
    · next fire hr =>
      obtain ⟨f, hf, rfl⟩ := Except.map_ok h
      rw [walk_fireStep hb hf, Scene.visit, hb, hr]
      rfl
    · cases h
  · cases h
    rfl
  · cases h
    rfl
  · cases h
  · cases h
    rfl
  · cases h
    rfl

theorem walks_enter (hb : scene.builder = b) (levels depth : Nat) :
    Walks scene (b.enter levels depth) (scene.enter levels depth : _ → _ → Walk φ ρ α Unit) := by
  induction levels generalizing depth with
  | zero =>
    intro a scope s h
    cases h
  | succ levels ih =>
    intro a scope s h
    obtain ⟨children, rfl, hc⟩ := enter_ok h
    obtain ⟨label, nodes⟩ := a
    have hall (values : Params) : (Step.walkAll scene children values : Walk φ ρ α Unit)
        = scene.enter (levels + 1) depth values ⟨label, nodes⟩ := by
      rw [Scene.enter]
      clear h
      simp only at hc ⊢
      induction hc with
      | nil => rfl
      | cons hstep _ ih' =>
        rw [Step.walkAll, walk_stepBy (ih (depth + 1)) hb hstep, ih']
        rfl
    have hempty : children.isEmpty = nodes.isEmpty := by
      cases hc <;> rfl
    refine ⟨fun he values => ?_, fun params => ?_⟩
    · simp only [List.isEmpty_iff] at he
      rw [Scene.enter, he]
      rfl
    · simp only [Sequence.walk_eq, hempty, funext hall]

/-- The walk of the sequence of an action is the walk of the action. -/
theorem walk_action (hb : scene.builder = b) {a : Action Node} {s : Sequence Step}
    (h : b.action a = .ok s) (params : Params) :
    (s.walk scene params : Walk φ ρ α Unit) = scene.walk params a := by
  rw [(walks_enter hb b.maxDepth 0).shared h, Scene.walk, hb]

end Builder

end Barrage
