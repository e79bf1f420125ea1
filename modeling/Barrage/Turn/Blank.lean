import Barrage.Step.Forget
import Barrage.Turn.Contract

/-!
# What turns do not change

* `Sequence.blank_advance`: no turn changes what a sequence was before it was first entered.
-/

namespace Barrage

variable {φ ρ α : Type}

/-- Evaluating a scope leaves its arguments. -/
theorem Turn.blank_resolve [RandomSource ρ] {stage : Stage} {outer : Params} {scope scope' : Scope}
    {isNew : Bool} {t t' : Turn φ ρ α}
    (h : t.resolve stage outer scope = (.ok (scope', isNew), t')) :
    scope'.expire.forget = scope.expire.forget := by
  rcases scope with _ | ⟨args, values, _ | _⟩
  · cases h
    rfl
  · rw [resolve] at h
    rcases hr : t.evalAll stage outer args with ⟨e | xs, t₁⟩ <;> rw [hr] at h <;> cases h
    rfl
  · cases h
    rfl

theorem Sequence.blank_withScope (s : Sequence Step) {scope : Scope} (isNew : Bool)
    (h : scope.expire.forget = s.scope.expire.forget) :
    (s.withScope scope isNew).blank = s.blank := by
  simp only [Sequence.blank_eq, withScope, h]
  cases isNew
  · rfl
  · simp [Step.expireAll_eq_map, Function.comp_def]

theorem Sequence.blank_settle {s : Sequence Step} {step : Step} {o : Outcome Step (Turn φ ρ α)}
    (hc : s.current? = some step) (ho : o.step.blank = step.blank) :
    (s.settle o).step.blank = s.blank := by
  have hset : (s.children.set s.cursor o.step).map Step.blank = s.children.map Step.blank :=
    Step.map_set hc ho
  unfold settle
  split
  · simp only [Sequence.blank_eq, hset]
  · simp only
    split <;> simp only [Sequence.blank_eq, hset]

/-- No turn changes what a step was before it was first entered. -/
def Contract.keepsBlank : Contract φ ρ α where
  sequence _ s _ o := o.step.blank = s.blank
  step _ s _ o := o.step.blank = s.blank
  rounds _ l _ o := o.step.times = l.times ∧ o.step.body.blank = l.body.blank

theorem LoopStep.blank_settle (l : LoopStep Step) :
    l.settle.times = l.times ∧ l.settle.body.blank = l.body.blank := by
  unfold settle
  split
  · exact ⟨rfl, l.body.blank_reset⟩
  · exact ⟨rfl, rfl⟩

variable [RandomSource ρ] [BulletFactory φ α]

theorem FireStep.blank_dispatch (stage : Stage) (params : Params) (f : FireStep)
    (t : Turn φ ρ α) :
    (Step.fire (f.dispatch stage params t).step).blank = (Step.fire f).blank := by
  rw [dispatch]
  rcases hr : (t.log (.began .fire)).resolve stage params f.scope with ⟨e | ⟨scope, isNew⟩, t₁⟩
  · rfl
  · have h := Turn.blank_resolve hr
    simp only
    rcases t₁.request stage (scope.params params) { f with scope } with ⟨e | r, t₂⟩ <;>
      simp only [Step.blank, Step.reset, Step.forget, FireStep.reset, h]

theorem Contract.keepsBlank_kept (stage : Stage) :
    (keepsBlank (φ := φ) (ρ := ρ) (α := α)).Kept stage where
  done _ := rfl
  scopeFails _ _ := rfl
  current {_ s _ _ isNew _ _ _} _ hr hc ho := by
    have h := s.blank_withScope isNew (Turn.blank_resolve hr)
    exact (Sequence.blank_settle hc ho).trans h
  nested ho := congrArg Step.sequence ho
  fire params f t := FireStep.blank_dispatch stage params f t
  mutation params m t := by
    rcases m.dispatch_cases stage params t with ⟨_, _, -, -, h⟩ | ⟨_, _, _, -, -, hm, h⟩ <;> rw [h]
    · rfl
    · rw [hm]
      rfl
  wait params w t := by
    rcases w.dispatch_cases stage params t with ⟨_, _, -, -, h⟩ | ⟨_, _, _, -, -, hw, h⟩ <;> rw [h]
    · rfl
    · rw [hw]
      rfl
  vanish _ _ _ := rfl
  countFails _ _ := rfl
  entered {_ l _ _ _ o} _ _ ho := by
    show (Step.loop o.step).blank = (Step.loop l).blank
    rw [Step.blank_loop, Step.blank_loop, ho.1, ho.2]
  resumed {_ l _ o _} _ ho := by
    show (Step.loop o.step).blank = (Step.loop l).blank
    rw [Step.blank_loop, Step.blank_loop, ho.1, ho.2]
  ended _ _ := ⟨rfl, rfl⟩
  exhausted _ _ _ := ⟨rfl, rfl⟩
  fails _ _ _ ho _ := ⟨rfl, ho⟩
  yields _ _ _ ho _ _ := by
    obtain ⟨ht, hb⟩ := LoopStep.blank_settle _
    exact ⟨ht, hb.trans ho⟩
  again _ _ _ ho _ _ hr := by
    obtain ⟨ht, hb⟩ := LoopStep.blank_settle _
    exact ⟨hr.1.trans ht, hr.2.trans (hb.trans ho)⟩

/-- No turn changes what a sequence was before it was first entered. -/
theorem Sequence.blank_advance (stage : Stage) (params : Params) (s : Sequence Step)
    (t : Turn φ ρ α) : (s.advance stage params t).step.blank = s.blank :=
  (Contract.keepsBlank_kept stage).advance params s t

end Barrage
