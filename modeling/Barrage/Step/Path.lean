import Barrage.Step.Valid

/-!
# Along the cursors

What the next turn of a step comes upon.

* `Step.Rested`: the timed step that the cursors lead to was not credited with any time.
* `Step.entered`: how many loops along the cursors were entered.
* `Step.Pristine.rested`, `Step.Pristine.entered`: there is nothing of the kind in a pristine step.
* `Step.rested_expire`, `Step.entered_expire`: it does not matter that the parameters around the step
  have changed.
-/

namespace Barrage

mutual

/-- No time was credited to the timed step that the cursors lead to. -/
def Step.Rested : Step → Prop
  | .sequence s => s.Rested
  | .loop l => l.Rested
  | .mutation m => m.elapsed = 0
  | .wait w => w.elapsed = 0
  | .fire _ | .vanish _ => True
termination_by structural s => s

/-- The step under the cursor is rested. -/
def Sequence.Rested : Sequence Step → Prop
  | ⟨_, _, children, cursor⟩ => Step.RestedAt children cursor
termination_by structural s => s

/-- The body of a loop is rested. -/
def LoopStep.Rested : LoopStep Step → Prop
  | ⟨_, _, _, body⟩ => body.Rested
termination_by structural l => l

/-- The step at a place is rested. -/
def Step.RestedAt : List Step → Nat → Prop
  | [], _ => True
  | s :: _, 0 => s.Rested
  | _ :: rest, n + 1 => Step.RestedAt rest n
termination_by structural l => l

end

mutual

/-- How many loops along the cursors were entered. -/
def Step.entered : Step → Nat
  | .sequence s => s.entered
  | .loop l => l.entered
  | .fire _ | .mutation _ | .wait _ | .vanish _ => 0
termination_by structural s => s

/-- How many loops along the cursors of a sequence were entered. -/
def Sequence.entered : Sequence Step → Nat
  | ⟨_, _, children, cursor⟩ => Step.enteredAt children cursor
termination_by structural s => s

/-- How many loops were entered from a loop on. -/
def LoopStep.entered : LoopStep Step → Nat
  | ⟨_, some _, _, body⟩ => body.entered + 1
  | ⟨_, none, _, _⟩ => 0
termination_by structural l => l

/-- How many loops were entered from the step at a place on. -/
def Step.enteredAt : List Step → Nat → Nat
  | [], _ => 0
  | s :: _, 0 => s.entered
  | _ :: rest, n + 1 => Step.enteredAt rest n
termination_by structural l => l

end

/-! ## Rested steps -/

theorem Step.restedAt_iff {l : List Step} {n : Nat} :
    Step.RestedAt l n ↔ ∀ c, l[n]? = some c → c.Rested := by
  induction l generalizing n with
  | nil => simp [Step.RestedAt]
  | cons s rest ih => cases n <;> simp [Step.RestedAt, ih]

theorem Sequence.rested_iff {s : Sequence Step} :
    s.Rested ↔ ∀ c, s.current? = some c → c.Rested := by
  simp only [Sequence.current?, ← Step.restedAt_iff]
  cases s
  rfl

theorem LoopStep.rested_iff {l : LoopStep Step} : l.Rested ↔ l.body.Rested := by
  cases l
  rfl

theorem Step.Pristine.rested {s : Step} (h : s.Pristine) : s.Rested := by
  induction s using Step.induction with
  | sequence s ih =>
    obtain ⟨-, hc⟩ := Sequence.pristine_iff.1 (show s.Pristine from h)
    refine Sequence.rested_iff.2 fun c he => ?_
    have hmem := List.mem_of_getElem? he
    exact ih c hmem (hc c hmem)
  | loop l ih =>
    obtain ⟨-, -, hb⟩ := LoopStep.pristine_iff.1 (show l.Pristine from h)
    exact LoopStep.rested_iff.2 (ih hb)
  | fire _ | vanish _ => trivial
  | mutation _ | wait _ => exact h.2

/-! ## Loops that were entered -/

theorem Step.enteredAt_eq (l : List Step) (n : Nat) :
    Step.enteredAt l n = (l[n]?.map Step.entered).getD 0 := by
  induction l generalizing n with
  | nil => rfl
  | cons s rest ih => cases n <;> simp [Step.enteredAt, ih]

theorem Sequence.entered_eq (s : Sequence Step) :
    s.entered = (s.current?.map Step.entered).getD 0 := by
  rw [Sequence.current?, ← Step.enteredAt_eq]
  cases s
  rfl

theorem Sequence.entered_of_current {s : Sequence Step} {c : Step} (h : s.current? = some c) :
    s.entered = c.entered := by
  rw [Sequence.entered_eq, h]
  rfl

theorem LoopStep.entered_of_some {l : LoopStep Step} {n : Nat} (h : l.target = some n) :
    l.entered = l.body.entered + 1 := by
  obtain ⟨_, _, _, _⟩ := l
  cases h
  rfl

theorem LoopStep.entered_of_none {l : LoopStep Step} (h : l.target = none) : l.entered = 0 := by
  obtain ⟨_, _, _, _⟩ := l
  cases h
  rfl

theorem Step.Pristine.entered {s : Step} (h : s.Pristine) : s.entered = 0 := by
  induction s using Step.induction with
  | sequence s ih =>
    obtain ⟨-, hc⟩ := Sequence.pristine_iff.1 (show s.Pristine from h)
    show s.entered = 0
    rw [Sequence.entered_eq]
    cases he : s.current? with
    | none => rfl
    | some c =>
      have hmem := List.mem_of_getElem? he
      exact ih c hmem (hc c hmem)
  | loop l ih =>
    obtain ⟨ht, -, -⟩ := LoopStep.pristine_iff.1 (show l.Pristine from h)
    exact LoopStep.entered_of_none ht
  | fire _ | vanish _ | mutation _ | wait _ => rfl

/-! ## Changed parameters -/

theorem Sequence.current?_expire (s : Sequence Step) :
    s.expire.current? = s.current? ∨ s.expire.current? = s.current?.map Step.expire := by
  rw [Sequence.expire_eq]
  by_cases h : s.scope.isShared = true
  · rw [if_pos h]
    exact .inr List.getElem?_map
  · rw [if_neg h]
    exact .inl rfl

theorem Step.rested_expire {s : Step} : s.expire.Rested ↔ s.Rested := by
  induction s using Step.induction with
  | sequence s ih =>
    show s.expire.Rested ↔ s.Rested
    rw [Sequence.rested_iff, Sequence.rested_iff]
    rcases s.current?_expire with h | h <;> rw [h]
    cases hc : s.current? with
    | none => simp
    | some c => simpa using ih c (List.mem_of_getElem? hc)
  | loop l ih =>
    show l.expire.Rested ↔ l.Rested
    rw [LoopStep.rested_iff, LoopStep.rested_iff, LoopStep.expire_eq]
    exact ih
  | fire _ | vanish _ | mutation _ | wait _ => exact Iff.rfl

theorem Step.entered_expire (s : Step) : s.expire.entered = s.entered := by
  induction s using Step.induction with
  | sequence s ih =>
    show s.expire.entered = s.entered
    rw [Sequence.entered_eq, Sequence.entered_eq]
    rcases s.current?_expire with h | h <;> rw [h]
    cases hc : s.current? with
    | none => rfl
    | some c => simpa using ih c (List.mem_of_getElem? hc)
  | loop l ih =>
    obtain ⟨_, _ | n, _, body⟩ := l
    · rfl
    · exact congrArg (· + 1) ih
  | fire _ | vanish _ | mutation _ | wait _ => rfl

end Barrage
