import Barrage.Step.Lemmas

/-!
# What a step remembers

A derived scope keeps the values it derived last even when they no longer hold. They are never read
before they are derived again, so two steps that differ in such values only are alike.

* `Step.forget`: the step with the values dropped that no longer hold; `Sequence.forget_eq` and its
  like give it field by field.
* `Step.isDone_forget`, `Step.isFinished_forget`, `Step.pathBelow_forget`: nothing that can be seen
  along the cursors is dropped.
* `Step.forget_expire`, `Step.forget_reset`, `Step.forget_finish`: what an operation from outside
  leaves behind does not depend on the values that were dropped.
* `Step.blank`: the step as it was before it was first entered.
-/

namespace Barrage

/-- The scope without values that no longer hold. -/
def Scope.forget : Scope → Scope
  | derived args _ false => derived args [] false
  | scope => scope

mutual

/-- A step without the values of scopes that no longer hold. -/
def Step.forget : Step → Step
  | .sequence s => .sequence s.forget
  | .loop l => .loop l.forget
  | .fire f => .fire { f with scope := f.scope.forget }
  | .mutation m => .mutation m
  | .wait w => .wait w
  | .vanish triggered => .vanish triggered
termination_by structural s => s

/-- A sequence without the values of scopes that no longer hold. -/
def Sequence.forget : Sequence Step → Sequence Step
  | ⟨label, scope, children, cursor⟩ => ⟨label, scope.forget, Step.forgetAll children, cursor⟩
termination_by structural s => s

/-- A loop without the values of scopes that no longer hold. -/
def LoopStep.forget : LoopStep Step → LoopStep Step
  | ⟨times, target, completed, body⟩ => ⟨times, target, completed, body.forget⟩
termination_by structural l => l

/-- Several steps without the values of scopes that no longer hold. -/
def Step.forgetAll : List Step → List Step
  | [] => []
  | s :: rest => s.forget :: Step.forgetAll rest
termination_by structural l => l

end

theorem Step.forgetAll_eq_map (l : List Step) : Step.forgetAll l = l.map Step.forget := by
  induction l with
  | nil => rfl
  | cons s rest ih => simp [Step.forgetAll, ih]

theorem Sequence.forget_eq (s : Sequence Step) :
    s.forget = { s with scope := s.scope.forget, children := s.children.map Step.forget } := by
  rw [← Step.forgetAll_eq_map]
  cases s
  rfl

theorem LoopStep.forget_eq (l : LoopStep Step) : l.forget = { l with body := l.body.forget } := by
  cases l
  rfl

@[simp] theorem Scope.forget_forget (s : Scope) : s.forget.forget = s.forget := by
  rcases s with _ | ⟨args, values, _ | _⟩ <;> rfl

@[simp] theorem Scope.expire_forget (s : Scope) : s.forget.expire.forget = s.expire.forget := by
  rcases s with _ | ⟨args, values, _ | _⟩ <;> rfl

@[simp] theorem Step.forget_forget (s : Step) : s.forget.forget = s.forget := by
  induction s using Step.induction with
  | sequence s ih =>
    simp only [Step.forget, Sequence.forget_eq, Scope.forget_forget, List.map_map]
    congr 2
    exact List.map_congr_left ih
  | loop l ih =>
    simp only [Step.forget, Step.sequence.injEq, LoopStep.forget_eq] at ih ⊢
    rw [ih]
  | fire f => simp [Step.forget]
  | mutation _ | wait _ | vanish _ => rfl

@[simp] theorem Sequence.forget_forget (s : Sequence Step) : s.forget.forget = s.forget := by
  simpa only [Step.forget, Step.sequence.injEq] using Step.forget_forget (.sequence s)

/-! ## Nothing along the cursors is dropped -/

@[simp] theorem Sequence.isDone_forget (s : Sequence Step) : s.forget.isDone = s.isDone := by
  simp [Sequence.forget_eq, Sequence.isDone]

@[simp] theorem Step.isDone_forget (s : Step) : s.forget.isDone = s.isDone := by
  cases s with
  | sequence s => exact s.isDone_forget
  | loop l => simp [Step.forget, Step.isDone, LoopStep.forget_eq, LoopStep.isDone]
  | fire _ | mutation _ | wait _ | vanish _ => rfl

@[simp] theorem Step.kind_forget (s : Step) : s.forget.kind = s.kind := by
  cases s <;> rfl

theorem Step.isFinishedAt_eq (l : List Step) (n : Nat) :
    Step.isFinishedAt l n = (l[n]?.map Step.isFinished).getD false := by
  induction l generalizing n with
  | nil => rfl
  | cons s rest ih => cases n <;> simp [Step.isFinishedAt, ih]

theorem Step.pathAt_eq (l : List Step) (n : Nat) :
    Step.pathAt l n = (l[n]?.map fun s => s.kind :: s.pathBelow).getD [] := by
  induction l generalizing n with
  | nil => rfl
  | cons s rest ih => cases n <;> simp [Step.pathAt, ih]

theorem Sequence.isFinished_eq (s : Sequence Step) :
    s.isFinished = (s.current?.map Step.isFinished).getD false := by
  rw [Sequence.current?, ← Step.isFinishedAt_eq]
  cases s
  rfl

theorem Sequence.activePath_eq (s : Sequence Step) :
    s.activePath = (s.current?.map fun c => c.kind :: c.pathBelow).getD [] := by
  rw [Sequence.current?, ← Step.pathAt_eq]
  cases s
  rfl

theorem LoopStep.isFinished_eq (l : LoopStep Step) : l.isFinished = l.body.isFinished := by
  cases l
  rfl

theorem LoopStep.activePath_eq (l : LoopStep Step) : l.activePath = l.body.activePath := by
  cases l
  rfl

@[simp] theorem Sequence.current?_forget (s : Sequence Step) :
    s.forget.current? = s.current?.map Step.forget := by
  simp [Sequence.forget_eq, Sequence.current?]

@[simp] theorem Step.isFinished_forget (s : Step) : s.forget.isFinished = s.isFinished := by
  induction s using Step.induction with
  | sequence s ih =>
    simp only [Step.forget, Step.isFinished, Sequence.isFinished_eq, Sequence.current?_forget]
    rcases hc : s.current? with _ | c
    · rfl
    · simpa using ih c (List.mem_of_getElem? hc)
  | loop l ih =>
    simp only [Step.forget, Step.isFinished, LoopStep.isFinished_eq, LoopStep.forget_eq] at ih ⊢
    exact ih
  | fire _ | mutation _ | wait _ | vanish _ => rfl

@[simp] theorem Step.pathBelow_forget (s : Step) : s.forget.pathBelow = s.pathBelow := by
  induction s using Step.induction with
  | sequence s ih =>
    simp only [Step.forget, Step.pathBelow, Sequence.activePath_eq, Sequence.current?_forget]
    rcases hc : s.current? with _ | c
    · rfl
    · simpa using ih c (List.mem_of_getElem? hc)
  | loop l ih =>
    simp only [Step.forget, Step.pathBelow, LoopStep.activePath_eq, LoopStep.forget_eq] at ih ⊢
    exact ih
  | fire _ | mutation _ | wait _ | vanish _ => rfl

/-! ## Operations from outside -/

theorem Step.forget_reset (s : Step) : s.forget.reset.forget = s.reset.forget := by
  induction s using Step.induction with
  | sequence s ih =>
    simp only [Step.forget, Step.reset, Sequence.reset_eq, Sequence.forget_eq, Scope.expire_forget,
      List.map_map]
    congr 2
    exact List.map_congr_left ih
  | loop l ih =>
    simp only [Step.forget, Step.reset, Step.sequence.injEq, LoopStep.forget_eq,
      LoopStep.reset_eq] at ih ⊢
    rw [ih]
  | fire f => simp [Step.forget, Step.reset, FireStep.reset]
  | mutation _ | wait _ | vanish _ => rfl

theorem Sequence.forget_reset (s : Sequence Step) : s.forget.reset.forget = s.reset.forget := by
  simpa only [Step.forget, Step.reset, Step.sequence.injEq] using
    Step.forget_reset (.sequence s)

/-- A step as it was before it was first entered. -/
def Step.blank (s : Step) : Step := s.reset.forget

/-- A sequence as it was before it was first entered. -/
def Sequence.blank (s : Sequence Step) : Sequence Step := s.reset.forget

theorem Sequence.blank_eq (s : Sequence Step) :
    s.blank = { s with
      scope := s.scope.expire.forget, children := s.children.map Step.blank, cursor := 0 } := by
  simp only [Sequence.blank, Sequence.reset_eq, Sequence.forget_eq, List.map_map]
  rfl

theorem Step.blank_sequence (s : Sequence Step) : (Step.sequence s).blank = .sequence s.blank := rfl

theorem Step.blank_loop (l : LoopStep Step) :
    (Step.loop l).blank
      = .loop { l with target := none, completed := 0, body := l.body.blank } := by
  simp only [Step.blank, Step.reset, Step.forget, LoopStep.reset_eq, LoopStep.forget_eq,
    Sequence.blank]

@[simp] theorem Step.blank_reset (s : Step) : s.reset.blank = s.blank := by
  rw [Step.blank, Step.reset_reset, Step.blank]

@[simp] theorem Step.blank_expire (s : Step) : s.expire.blank = s.blank := by
  rw [Step.blank, Step.reset_expire, Step.blank]

@[simp] theorem Step.blank_finish (s : Step) : s.finish.blank = s.blank := by
  rw [Step.blank, Step.reset_finish, Step.blank]

@[simp] theorem Sequence.blank_reset (s : Sequence Step) : s.reset.blank = s.blank := by
  rw [Sequence.blank, Sequence.reset_reset, Sequence.blank]

@[simp] theorem Sequence.blank_finish (s : Sequence Step) : s.finish.blank = s.blank := by
  rw [Sequence.blank, Sequence.reset_finish, Sequence.blank]

end Barrage
