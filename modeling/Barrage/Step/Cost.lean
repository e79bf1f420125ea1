import Barrage.Step.BuildLemmas

/-!
# How many turns a step takes

A turn of a sequence gives one turn to the step under its cursor. A step that takes no time is done with it,
a nested sequence needs one turn for each step in it, and a sequence without steps needs one to be passed.

* `Step.cost`: the turns that a step takes from its start.
* `Step.due`: those of them that are still to come; `Sequence.due_eq_zero_iff`: none if it is done.
* `Sequence.due_of_blank`: all of them are due in a sequence that was not entered yet.
* `Builder.turns`: the turns that an action takes; `Builder.cost_action`: as many as the sequence built of it.
* `Step.dueFrom_set`, `Step.due_expire`: what replacing a step in a list and new parameters do to them.
-/

namespace Barrage

mutual

/-- The turns that a step takes from its start if it has no steps in it that take time. -/
def Step.cost : Step → Nat
  | .sequence s => max 1 s.cost
  | .loop _ | .fire _ | .mutation _ | .wait _ | .vanish _ => 1
termination_by structural s => s

/-- The turns that the steps of a sequence take. -/
def Sequence.cost : Sequence Step → Nat
  | ⟨_, _, children, _⟩ => Step.costOfAll children
termination_by structural s => s

/-- The turns that several steps take, one after the other. -/
def Step.costOfAll : List Step → Nat
  | [] => 0
  | s :: rest => s.cost + Step.costOfAll rest
termination_by structural l => l

end

mutual

/-- The turns that a step still takes. -/
def Step.due : Step → Nat
  | .sequence s => max 1 s.due
  | .loop _ | .fire _ | .mutation _ | .wait _ | .vanish _ => 1
termination_by structural s => s

/-- The turns that the steps from the cursor on still take. -/
def Sequence.due : Sequence Step → Nat
  | ⟨_, _, children, cursor⟩ => Step.dueFrom children cursor
termination_by structural s => s

/-- The turns that the steps from a place on still take. -/
def Step.dueFrom : List Step → Nat → Nat
  | [], _ => 0
  | s :: rest, 0 => s.due + Step.dueFrom rest 0
  | _ :: rest, n + 1 => Step.dueFrom rest n
termination_by structural l => l

end

theorem Sequence.cost_eq (s : Sequence Step) : s.cost = Step.costOfAll s.children := by
  cases s
  rfl

theorem Sequence.due_eq (s : Sequence Step) : s.due = Step.dueFrom s.children s.cursor := by
  cases s
  rfl

theorem Step.one_le_due (s : Step) : 1 ≤ s.due := by
  cases s with
  | sequence s => exact Nat.le_max_left ..
  | loop _ | fire _ | mutation _ | wait _ | vanish _ => exact Nat.le_refl 1

theorem Step.dueFrom_eq_zero_iff {l : List Step} {n : Nat} : Step.dueFrom l n = 0 ↔ l.length ≤ n := by
  induction l generalizing n with
  | nil => simp [Step.dueFrom]
  | cons s rest ih =>
    cases n with
    | zero =>
      have := s.one_le_due
      simp only [Step.dueFrom, List.length_cons]
      omega
    | succ n => simp [Step.dueFrom, ih]

/-- A sequence is done if no turns of its steps are due. -/
theorem Sequence.due_eq_zero_iff {s : Sequence Step} : s.due = 0 ↔ s.isDone = true := by
  rw [due_eq, Step.dueFrom_eq_zero_iff, isDone, decide_eq_true_iff]

theorem Step.dueFrom_blank {l : List Step} (h : ∀ s ∈ l, s.blank.due = s.cost) :
    Step.dueFrom (l.map Step.blank) 0 = Step.costOfAll l := by
  induction l with
  | nil => rfl
  | cons s rest ih =>
    rw [List.map_cons, Step.dueFrom, Step.costOfAll, h s List.mem_cons_self,
      ih fun c hc => h c (List.mem_cons_of_mem s hc)]

/-- What is due in a blank step is all that it takes. -/
theorem Step.due_blank (s : Step) : s.blank.due = s.cost := by
  induction s using Step.induction with
  | sequence s ih =>
    rw [Step.blank_sequence, Step.due, Sequence.due_eq, Sequence.blank_eq, Step.cost, Sequence.cost_eq]
    exact congrArg (max 1) (Step.dueFrom_blank ih)
  | loop _ | fire _ | mutation _ | wait _ | vanish _ => rfl

/-- All turns are due in a sequence that was not entered yet. -/
theorem Sequence.due_of_blank {s : Sequence Step} (h : s.blank = s) : s.due = s.cost := by
  have hdue : s.blank.due = s.cost := by
    rw [due_eq, blank_eq, cost_eq]
    exact Step.dueFrom_blank fun c _ => c.due_blank
  rwa [h] at hdue

/-- Replacing the step at a place changes what is due there; passing the place leaves what comes after. -/
theorem Step.dueFrom_set {l : List Step} {n : Nat} {s : Step} (h : l[n]? = some s) :
    ∃ rest, Step.dueFrom l n = s.due + rest ∧
      ∀ s', Step.dueFrom (l.set n s') n = s'.due + rest ∧ Step.dueFrom (l.set n s') (n + 1) = rest := by
  induction l generalizing n with
  | nil => simp at h
  | cons a rest ih =>
    cases n with
    | zero =>
      obtain rfl : a = s := Option.some.inj h
      exact ⟨Step.dueFrom rest 0, rfl, fun _ => ⟨rfl, rfl⟩⟩
    | succ n => exact ih (n := n) h

theorem Step.dueFrom_map {l : List Step} {f : Step → Step} (n : Nat) (h : ∀ s ∈ l, (f s).due = s.due) :
    Step.dueFrom (l.map f) n = Step.dueFrom l n := by
  induction l generalizing n with
  | nil => rfl
  | cons s rest ih =>
    have hrest (n : Nat) := ih n fun c hc => h c (List.mem_cons_of_mem s hc)
    cases n with
    | zero => rw [List.map_cons, Step.dueFrom, hrest, h s List.mem_cons_self, Step.dueFrom]
    | succ n => exact hrest n

/-- New parameters around a step make no turns due. -/
theorem Step.due_expire (s : Step) : s.expire.due = s.due := by
  induction s using Step.induction with
  | sequence s ih =>
    show max 1 s.expire.due = max 1 s.due
    rw [Sequence.due_eq, Sequence.due_eq, Sequence.expire_eq]
    split
    · exact congrArg (max 1) (Step.dueFrom_map s.cursor ih)
    · rfl
  | loop _ | fire _ | mutation _ | wait _ | vanish _ => rfl

/-! ## Built steps -/

namespace Builder

/-- The turns that a node takes, given what actions take. A fire and a loop take one, however often the loop
runs, and an action without nodes takes one to be passed. -/
def turnsBy (b : Builder) (enter : Action Node → Nat) : Node → Nat
  | .action a => max 1 (enter a)
  | .actionRef r =>
    match b.document.resolveAction r.label with
    | .ok a => max 1 (enter a)
    | .error _ => 1
  | .loop _ _ | .fire _ | .fireRef _ | .changeDirection _ _ | .changeSpeed _ _ | .accel _ _ _ | .wait _
  | .vanish => 1

/-- The turns that the nodes of an action take when actions may nest `levels` deeper. -/
def turnsWithin (b : Builder) : Nat → Action Node → Nat
  | 0, _ => 0
  | levels + 1, a => a.children.foldr (fun n turns => b.turnsBy (b.turnsWithin levels) n + turns) 0

/-- The turns that the nodes of an action take if they take no time. -/
def turns (b : Builder) (a : Action Node) : Nat := b.turnsWithin b.maxDepth a

variable {b : Builder} {enter : Action Node → Scope → Except StepError (Sequence Step)}
variable {turnsOf : Action Node → Nat}

theorem cost_stepBy (he : ∀ a scope s, enter a scope = .ok s → s.cost = turnsOf a) {n : Node} {step : Step}
    (h : b.stepBy enter n = .ok step) : step.cost = b.turnsBy turnsOf n := by
  unfold stepBy at h
  split at h
  · obtain ⟨s, hs, rfl⟩ := Except.map_ok h
    exact congrArg (max 1) (he _ _ _ hs)
  · obtain ⟨s, hs, rfl⟩ := Except.map_ok h
    rw [follow] at hs
    split at hs
    · next a ha =>
      simp only [turnsBy, ha]
      exact congrArg (max 1) (he _ _ _ hs)
    · cases hs
  · obtain ⟨s, -, rfl⟩ := Except.map_ok h
    rfl
  · obtain ⟨s, -, rfl⟩ := Except.map_ok h
    rfl
  · obtain ⟨f, -, rfl⟩ := Except.map_ok h
    rfl
  · split at h
    · obtain ⟨f, -, rfl⟩ := Except.map_ok h
      rfl
    · cases h
  · cases h
    rfl
  · cases h
    rfl
  · cases h
  · cases h
    rfl
  · cases h
    rfl

theorem cost_enter {levels depth : Nat} {a : Action Node} {scope : Scope} {s : Sequence Step}
    (h : b.enter levels depth a scope = .ok s) : s.cost = b.turnsWithin levels a := by
  induction levels generalizing depth a scope s with
  | zero => cases h
  | succ levels ih =>
    obtain ⟨children, rfl, hc⟩ := enter_ok h
    obtain ⟨label, nodes⟩ := a
    rw [Sequence.cost_eq, turnsWithin]
    clear h
    simp only at hc ⊢
    induction hc with
    | nil => rfl
    | cons hstep _ ihc =>
      rw [Step.costOfAll, List.foldr_cons, cost_stepBy (fun _ _ _ hs => ih hs) hstep, ihc]

/-- The sequence of an action takes as many turns as the action. -/
theorem cost_action {a : Action Node} {s : Sequence Step} (h : b.action a = .ok s) : s.cost = b.turns a :=
  cost_enter h

end Builder

end Barrage
