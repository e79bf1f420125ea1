import Barrage.Step.Basic

/-!
# Laws of steps

* `Step.induction`: a property of steps is shown of a sequence from its children and of a loop from
  its body.
* `Step.expireAll_eq_map`, `Step.resetAll_eq_map`, `Step.finishAt_eq_modify` and `Sequence.reset_eq`
  and its like: the operations on sequences and loops as updates of their fields.
* `Step.height_expire`, `Step.height_reset`, `Step.height_finish`: no operation from outside changes
  how deep sequences nest.
* `Step.reset_reset`, `Step.expire_expire`: doing either twice is doing it once.
* `Step.reset_expire`, `Step.reset_finish`: a step that is reset forgets that its surroundings
  changed before and that it was given up on.
* `Sequence.isDone_reset`: a sequence that was reset is done exactly when it has no steps.
-/

namespace Barrage

/-- Induction over steps: a sequence from its children, a loop from its body. -/
@[elab_as_elim]
theorem Step.induction {motive : Step → Prop}
    (sequence : ∀ s : Sequence Step, (∀ c ∈ s.children, motive c) → motive (.sequence s))
    (loop : ∀ l : LoopStep Step, motive (.sequence l.body) → motive (.loop l))
    (fire : ∀ f, motive (.fire f)) (mutation : ∀ m, motive (.mutation m))
    (wait : ∀ w, motive (.wait w)) (vanish : ∀ triggered, motive (.vanish triggered)) (s : Step) :
    motive s := by
  refine @Step.rec motive (fun s => motive (.sequence s)) (fun l => motive (.loop l))
    (fun l => ∀ c ∈ l, motive c) (fun _ h => h) (fun _ h => h) fire mutation wait vanish
    (fun _ _ _ _ h => sequence _ h) (fun _ _ _ _ h => loop _ h) ?_ ?_ s
  · intro c h
    cases h
  · intro s rest hs hrest c h
    rcases List.mem_cons.1 h with rfl | h
    · exact hs
    · exact hrest c h

/-! ## Operations as updates -/

namespace Step

theorem expireAll_eq_map (l : List Step) : expireAll l = l.map expire := by
  induction l with
  | nil => rfl
  | cons s rest ih => simp [expireAll, ih]

theorem resetAll_eq_map (l : List Step) : resetAll l = l.map reset := by
  induction l with
  | nil => rfl
  | cons s rest ih => simp [resetAll, ih]

theorem finishAt_eq_modify (l : List Step) (n : Nat) : finishAt l n = l.modify n finish := by
  induction l generalizing n with
  | nil => cases n <;> rfl
  | cons s rest ih => cases n <;> simp [finishAt, ih]

/-- What holds of several steps and is kept by a change holds after one of them was changed. -/
theorem forall_mem_modify {P : Step → Prop} {l : List Step} {n : Nat} {f : Step → Step}
    (h : ∀ s ∈ l, P s) (hf : ∀ s ∈ l, P s → P (f s)) : ∀ s ∈ l.modify n f, P s := by
  intro s hs
  obtain ⟨i, hi⟩ := List.mem_iff_getElem?.1 hs
  rw [List.getElem?_modify] at hi
  obtain ⟨s', hs', rfl⟩ := Option.map_eq_some_iff.1 hi
  have hmem := List.mem_of_getElem? hs'
  split
  · exact hf s' hmem (h s' hmem)
  · exact h s' hmem

/-- A map does not see a change that it undoes. -/
theorem map_modify {β : Type} {l : List Step} {n : Nat} {f : Step → β} {g : Step → Step}
    (h : ∀ s ∈ l, f (g s) = f s) : (l.modify n g).map f = l.map f := by
  induction l generalizing n with
  | nil => simp
  | cons a rest ih =>
    cases n with
    | zero => simp [h a List.mem_cons_self]
    | succ n => simp [ih fun s hs => h s (List.mem_cons_of_mem a hs)]

/-- A map does not see that a step was replaced by one with the same image. -/
theorem map_set {β : Type} {l : List Step} {n : Nat} {s s' : Step} {f : Step → β}
    (h : l[n]? = some s) (hs : f s' = f s) : (l.set n s').map f = l.map f := by
  induction l generalizing n with
  | nil => simp at h
  | cons a rest ih =>
    cases n with
    | zero =>
      simp only [List.getElem?_cons_zero, Option.some.injEq] at h
      simp [h, hs]
    | succ n =>
      simp only [List.getElem?_cons_succ] at h
      simp [ih h]

@[simp] theorem length_expireAll (l : List Step) : (expireAll l).length = l.length := by
  simp [expireAll_eq_map]

end Step

theorem Sequence.expire_eq (s : Sequence Step) :
    s.expire = { s with
      scope := s.scope.expire
      children := if s.scope.isShared then s.children.map Step.expire else s.children } := by
  obtain ⟨label, _ | ⟨args, values, current⟩, children, cursor⟩ := s
  · rw [← Step.expireAll_eq_map]
    rfl
  · rfl

theorem Sequence.reset_eq (s : Sequence Step) :
    s.reset
      = { s with scope := s.scope.expire, children := s.children.map Step.reset, cursor := 0 } := by
  rw [← Step.resetAll_eq_map]
  cases s
  rfl

theorem Sequence.finish_eq (s : Sequence Step) :
    s.finish = { s with children := s.children.modify s.cursor Step.finish } := by
  rw [← Step.finishAt_eq_modify]
  cases s
  rfl

theorem LoopStep.expire_eq (l : LoopStep Step) : l.expire = { l with body := l.body.expire } := by
  cases l
  rfl

theorem LoopStep.reset_eq (l : LoopStep Step) :
    l.reset = { l with target := none, completed := 0, body := l.body.reset } := by
  cases l
  rfl

theorem LoopStep.finish_eq (l : LoopStep Step) : l.finish = { l with body := l.body.finish } := by
  cases l
  rfl

/-! ## Heights -/

theorem Sequence.height_eq (s : Sequence Step) : s.height = Step.heightOfAll s.children + 1 := by
  cases s
  rfl

theorem LoopStep.height_eq (l : LoopStep Step) : l.height = l.body.height := by
  cases l
  rfl

/-- A step of a list is not higher than the list. -/
theorem Step.height_le_heightOfAll {l : List Step} {s : Step} (h : s ∈ l) :
    s.height ≤ Step.heightOfAll l := by
  induction l with
  | nil => cases h
  | cons a rest ih =>
    rcases List.mem_cons.1 h with rfl | h
    · simp only [Step.heightOfAll]; omega
    · have := ih h
      simp only [Step.heightOfAll]; omega

/-- Changing steps without changing their heights leaves the height of the list. -/
theorem Step.heightOfAll_map {l : List Step} {f : Step → Step}
    (h : ∀ s ∈ l, (f s).height = s.height) :
    Step.heightOfAll (l.map f) = Step.heightOfAll l := by
  induction l with
  | nil => rfl
  | cons a rest ih =>
    simp only [List.map_cons, Step.heightOfAll]
    rw [h a List.mem_cons_self, ih fun s hs => h s (List.mem_cons_of_mem a hs)]

/-- Replacing a step by one of the same height leaves the height of the list. -/
theorem Step.heightOfAll_set {l : List Step} {n : Nat} {s s' : Step} (h : l[n]? = some s)
    (hs : s'.height = s.height) : Step.heightOfAll (l.set n s') = Step.heightOfAll l := by
  induction l generalizing n with
  | nil => simp at h
  | cons a rest ih =>
    cases n with
    | zero =>
      simp only [List.getElem?_cons_zero, Option.some.injEq] at h
      simp [Step.heightOfAll, h, hs]
    | succ n =>
      simp only [List.getElem?_cons_succ] at h
      simp [Step.heightOfAll, ih h]

theorem Step.heightOfAll_modify {l : List Step} {n : Nat} {f : Step → Step}
    (h : ∀ s ∈ l, (f s).height = s.height) :
    Step.heightOfAll (l.modify n f) = Step.heightOfAll l := by
  induction l generalizing n with
  | nil => simp
  | cons a rest ih =>
    cases n with
    | zero => simp [Step.heightOfAll, h a List.mem_cons_self]
    | succ n => simp [Step.heightOfAll, ih fun s hs => h s (List.mem_cons_of_mem a hs)]

@[simp] theorem Step.height_expire (s : Step) : s.expire.height = s.height := by
  induction s using Step.induction with
  | sequence s ih =>
    simp only [Step.expire, Step.height, Sequence.height_eq, Sequence.expire_eq]
    split
    · rw [Step.heightOfAll_map ih]
    · rfl
  | loop l ih =>
    simp only [Step.expire, Step.height, LoopStep.height_eq, LoopStep.expire_eq] at ih ⊢
    exact ih
  | fire _ | mutation _ | wait _ | vanish _ => rfl

@[simp] theorem Step.height_reset (s : Step) : s.reset.height = s.height := by
  induction s using Step.induction with
  | sequence s ih =>
    simp only [Step.reset, Step.height, Sequence.height_eq, Sequence.reset_eq]
    rw [Step.heightOfAll_map ih]
  | loop l ih =>
    simp only [Step.reset, Step.height, LoopStep.height_eq, LoopStep.reset_eq] at ih ⊢
    exact ih
  | fire _ | mutation _ | wait _ | vanish _ => rfl

@[simp] theorem Step.height_finish (s : Step) : s.finish.height = s.height := by
  induction s using Step.induction with
  | sequence s ih =>
    simp only [Step.finish, Step.height, Sequence.height_eq, Sequence.finish_eq]
    rw [Step.heightOfAll_modify ih]
  | loop l ih =>
    simp only [Step.finish, Step.height, LoopStep.height_eq, LoopStep.finish_eq] at ih ⊢
    exact ih
  | fire _ | mutation _ | wait _ | vanish _ => rfl

@[simp] theorem Sequence.height_reset (s : Sequence Step) : s.reset.height = s.height :=
  Step.height_reset (.sequence s)

@[simp] theorem Step.heightOfAll_expireAll (l : List Step) :
    Step.heightOfAll (Step.expireAll l) = Step.heightOfAll l := by
  rw [Step.expireAll_eq_map]
  exact Step.heightOfAll_map fun s _ => Step.height_expire s

/-! ## Twice is once -/

@[simp] theorem Scope.expire_expire (s : Scope) : s.expire.expire = s.expire := by
  cases s <;> rfl

@[simp] theorem Scope.isShared_expire (s : Scope) : s.expire.isShared = s.isShared := by
  cases s <;> rfl

@[simp] theorem Step.reset_reset (s : Step) : s.reset.reset = s.reset := by
  induction s using Step.induction with
  | sequence s ih =>
    simp only [Step.reset, Sequence.reset_eq, Scope.expire_expire, List.map_map]
    congr 2
    exact List.map_congr_left ih
  | loop l ih =>
    simp only [Step.reset, Step.sequence.injEq, LoopStep.reset_eq] at ih ⊢
    rw [ih]
  | fire f => simp [Step.reset, FireStep.reset]
  | mutation _ | wait _ | vanish _ => rfl

@[simp] theorem Step.expire_expire (s : Step) : s.expire.expire = s.expire := by
  induction s using Step.induction with
  | sequence s ih =>
    simp only [Step.expire, Sequence.expire_eq, Scope.expire_expire, Scope.isShared_expire]
    split
    · congr 2
      rw [List.map_map]
      exact List.map_congr_left ih
    · rfl
  | loop l ih =>
    simp only [Step.expire, Step.sequence.injEq, LoopStep.expire_eq] at ih ⊢
    rw [ih]
  | fire f => simp [Step.expire]
  | mutation _ | wait _ | vanish _ => rfl

@[simp] theorem Step.reset_expire (s : Step) : s.expire.reset = s.reset := by
  induction s using Step.induction with
  | sequence s ih =>
    simp only [Step.expire, Step.reset, Sequence.expire_eq, Sequence.reset_eq, Scope.expire_expire]
    split
    · congr 2
      rw [List.map_map]
      exact List.map_congr_left ih
    · rfl
  | loop l ih =>
    simp only [Step.expire, Step.reset, Step.sequence.injEq, LoopStep.expire_eq,
      LoopStep.reset_eq] at ih ⊢
    rw [ih]
  | fire f => simp [Step.expire, Step.reset, FireStep.reset]
  | mutation _ | wait _ | vanish _ => rfl

@[simp] theorem Step.reset_finish (s : Step) : s.finish.reset = s.reset := by
  induction s using Step.induction with
  | sequence s ih =>
    simp only [Step.finish, Step.reset, Sequence.finish_eq, Sequence.reset_eq]
    congr 2
    exact Step.map_modify ih
  | loop l ih =>
    simp only [Step.finish, Step.reset, Step.sequence.injEq, LoopStep.finish_eq,
      LoopStep.reset_eq] at ih ⊢
    rw [ih]
  | fire _ | mutation _ | wait _ | vanish _ => rfl

@[simp] theorem Sequence.reset_reset (s : Sequence Step) : s.reset.reset = s.reset := by
  simpa only [Step.reset, Step.sequence.injEq] using Step.reset_reset (.sequence s)

@[simp] theorem Sequence.reset_finish (s : Sequence Step) : s.finish.reset = s.reset := by
  simpa only [Step.finish, Step.reset, Step.sequence.injEq] using Step.reset_finish (.sequence s)

theorem Sequence.isDone_reset (s : Sequence Step) : s.reset.isDone = s.children.isEmpty := by
  cases s with
  | mk label scope children cursor => cases children <;> simp [Sequence.reset_eq, Sequence.isDone]

end Barrage
