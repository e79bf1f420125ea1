import Barrage.Except
import Barrage.Step.Build
import Barrage.Step.Forget

/-!
# Laws of building

* `Builder.enter_ok`, `Builder.bullet_ok`: a sequence that was built has the steps of its nodes.
* `Builder.blank_node`, `Builder.blank_action`, `Builder.blank_bullet`: a step that was built is as
  it is before it is first entered.
-/

namespace Barrage

/-- The scopes that steps are built with. -/
def Scope.IsNew (scope : Scope) : Prop := scope.expire.forget = scope

theorem Scope.isNew_shared : Scope.shared.IsNew := rfl

theorem Scope.isNew_ofArgs (args : List Formula) : (Scope.ofArgs args).IsNew := rfl

namespace Builder

variable {b : Builder}

/-- An action that was entered has the steps of its nodes. -/
theorem enter_ok {levels depth : Nat} {a : Action Node} {scope : Scope}
    {s : Sequence Step} (h : b.enter (levels + 1) depth a scope = .ok s) :
    ∃ children, s = ⟨a.label, scope, children, 0⟩ ∧
      List.Forall₂ (fun n c => b.stepBy (b.enter levels (depth + 1)) n = .ok c)
        a.children children := by
  rw [enter] at h
  rcases hc : a.children.mapM (b.stepBy (b.enter levels (depth + 1))) with e | children
  · rw [hc] at h
    cases h
  · rw [hc] at h
    cases h
    exact ⟨children, rfl, Except.mapM_ok hc⟩

/-- The sequence of a bullet definition has the steps of its nodes. -/
theorem bullet_ok {d : BulletDef Node} {s : Sequence Step} (h : b.bullet d = .ok s) :
    ∃ children, s = ⟨d.label, .shared, children, 0⟩ ∧
      List.Forall₂ (fun n c => b.stepBy (b.enter (b.maxDepth - 1) 1) n = .ok c)
        d.actions children := by
  rw [bullet] at h
  rcases hc : d.actions.mapM (b.stepBy (b.enter (b.maxDepth - 1) 1)) with e | children
  · rw [hc] at h
    cases h
  · rw [hc] at h
    cases h
    exact ⟨children, rfl, Except.mapM_ok hc⟩

/-! ## New steps are blank -/

theorem blank_fireStep {fire : Fire Node} {scope : Scope} (hs : scope.IsNew) {f : FireStep}
    (h : b.fireStep fire scope = .ok f) : (Step.fire f).blank = .fire f := by
  have hb : f.scope = scope ∧ f.fired = false := by
    rw [fireStep] at h
    split at h
    · cases h
      exact ⟨rfl, rfl⟩
    · split at h <;> cases h
      exact ⟨rfl, rfl⟩
  have hf : f.scope.expire.forget = f.scope := by rw [hb.1, hs]
  simp only [Step.blank, Step.reset, Step.forget, FireStep.reset, hf]
  rw [← hb.2]

variable {enter : Action Node → Scope → Except StepError (Sequence Step)}

theorem blank_follow (he : ∀ a scope s, scope.IsNew → enter a scope = .ok s → s.blank = s)
    {r : Reference} {s : Sequence Step} (h : b.follow enter r = .ok s) : s.blank = s := by
  rw [follow] at h
  split at h
  · exact he _ _ _ (Scope.isNew_ofArgs r.args) h
  · cases h

theorem blank_stepBy (he : ∀ a scope s, scope.IsNew → enter a scope = .ok s → s.blank = s)
    {n : Node} {step : Step} (h : b.stepBy enter n = .ok step) : step.blank = step := by
  unfold stepBy at h
  split at h
  · obtain ⟨s, hs, rfl⟩ := Except.map_ok h
    rw [Step.blank_sequence, he _ _ _ Scope.isNew_shared hs]
  · obtain ⟨s, hs, rfl⟩ := Except.map_ok h
    rw [Step.blank_sequence, blank_follow he hs]
  · obtain ⟨s, hs, rfl⟩ := Except.map_ok h
    rw [Step.blank_loop, he _ _ _ Scope.isNew_shared hs]
  · obtain ⟨s, hs, rfl⟩ := Except.map_ok h
    rw [Step.blank_loop, blank_follow he hs]
  · obtain ⟨f, hf, rfl⟩ := Except.map_ok h
    exact blank_fireStep Scope.isNew_shared hf
  · next r =>
    split at h
    · obtain ⟨f, hf, rfl⟩ := Except.map_ok h
      exact blank_fireStep (Scope.isNew_ofArgs r.args) hf
    · cases h
  · cases h
    rfl
  · cases h
    rfl
  · cases h
  · cases h
    rfl
  · cases h
    rfl

/-- Steps made one for each node by a way of building blank steps are blank. -/
theorem map_blank {f : Node → Except StepError Step} {ns : List Node} {cs : List Step}
    (hf : ∀ n c, f n = .ok c → c.blank = c)
    (h : List.Forall₂ (fun n c => f n = .ok c) ns cs) : cs.map Step.blank = cs := by
  induction h with
  | nil => rfl
  | cons hc _ ih => rw [List.map_cons, ih, hf _ _ hc]

theorem blank_enter {levels depth : Nat} {a : Action Node} {scope : Scope} {s : Sequence Step}
    (hs : scope.IsNew) (h : b.enter levels depth a scope = .ok s) : s.blank = s := by
  induction levels generalizing depth a scope s with
  | zero => cases h
  | succ levels ih =>
    obtain ⟨children, rfl, hc⟩ := enter_ok h
    have hm := map_blank (fun n c => blank_stepBy fun a scope s => @ih (depth + 1) a scope s) hc
    have hs : scope.expire.forget = scope := hs
    rw [Sequence.blank_eq, hm, hs]

/-- The step of a node is as it is before it is first entered. -/
theorem blank_node {n : Node} {step : Step} (h : b.node n = .ok step) : step.blank = step :=
  blank_stepBy (fun _ _ _ => blank_enter) h

/-- The sequence of an action is as it is before it is first entered. -/
theorem blank_action {a : Action Node} {s : Sequence Step} (h : b.action a = .ok s) : s.blank = s :=
  blank_enter Scope.isNew_shared h

/-- The sequence of a bullet definition is as it is before it is first entered. -/
theorem blank_bullet {d : BulletDef Node} {s : Sequence Step} (h : b.bullet d = .ok s) :
    s.blank = s := by
  obtain ⟨children, rfl, hc⟩ := bullet_ok h
  rw [Sequence.blank_eq, map_blank (fun n c => blank_stepBy fun _ _ _ => blank_enter) hc]
  rfl

end Builder

end Barrage
