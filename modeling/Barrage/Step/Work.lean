import Barrage.Step.Kinds
import Barrage.Step.Path

/-!
# How much is left to do

* `Step.nesting`: how deep loops nest in a step; `Step.entered_le_nesting`.
* `Step.span`: how much there is to do in a step from its start, however often its loops run.
* `Step.work`: how much of it is left. Only steps that take no time count.
* `Step.Pristine.work`: all of it is left in a pristine step.
* `Step.nesting_blank`, `Step.span_blank`: what a step has done does not matter to the first two, so no
  turn changes them.
-/

namespace Barrage

/-- The largest number of iterations that a loop can have. -/
def Scalar.maxCount : Nat := 2 ^ 32 - 1

theorem Scalar.count_le (x : Scalar) : x.count.toNat ≤ Scalar.maxCount :=
  Nat.le_pred_of_lt x.count.toNat_lt

/-! ## Nesting of loops -/

mutual

/-- How deep loops nest in a step. -/
def Step.nesting : Step → Nat
  | .sequence s => s.nesting
  | .loop l => l.nesting
  | .fire _ | .mutation _ | .wait _ | .vanish _ => 0
termination_by structural s => s

/-- How deep loops nest in a sequence. -/
def Sequence.nesting : Sequence Step → Nat
  | ⟨_, _, children, _⟩ => Step.nestingOfAll children
termination_by structural s => s

/-- How deep loops nest in a loop, itself included. -/
def LoopStep.nesting : LoopStep Step → Nat
  | ⟨_, _, _, body⟩ => body.nesting + 1
termination_by structural l => l

/-- How deep loops nest in the deepest of several steps. -/
def Step.nestingOfAll : List Step → Nat
  | [] => 0
  | s :: rest => max s.nesting (Step.nestingOfAll rest)
termination_by structural l => l

end

theorem Sequence.nesting_eq (s : Sequence Step) : s.nesting = Step.nestingOfAll s.children := by
  cases s
  rfl

theorem LoopStep.nesting_eq (l : LoopStep Step) : l.nesting = l.body.nesting + 1 := by
  cases l
  rfl

theorem Step.nesting_le_nestingOfAll {l : List Step} {s : Step} (h : s ∈ l) :
    s.nesting ≤ Step.nestingOfAll l := by
  induction l with
  | nil => cases h
  | cons a rest ih =>
    rw [Step.nestingOfAll]
    rcases List.mem_cons.1 h with rfl | h
    · omega
    · have := ih h
      omega

theorem Step.nestingOfAll_map {l : List Step} {f : Step → Step}
    (h : ∀ s ∈ l, (f s).nesting = s.nesting) :
    Step.nestingOfAll (l.map f) = Step.nestingOfAll l := by
  induction l with
  | nil => rfl
  | cons s rest ih =>
    have hrest := ih fun c hc => h c (List.mem_cons_of_mem s hc)
    rw [List.map_cons, Step.nestingOfAll, hrest, h s List.mem_cons_self, Step.nestingOfAll]

theorem Step.nesting_blank (s : Step) : s.blank.nesting = s.nesting := by
  induction s using Step.induction with
  | sequence s ih =>
    show s.blank.nesting = s.nesting
    rw [Sequence.nesting_eq, Sequence.nesting_eq, Sequence.blank_eq]
    exact Step.nestingOfAll_map ih
  | loop l ih =>
    rw [Step.blank_loop]
    show LoopStep.nesting _ = l.nesting
    rw [LoopStep.nesting_eq, LoopStep.nesting_eq]
    exact congrArg (· + 1) ih
  | fire _ | vanish _ | mutation _ | wait _ => rfl

theorem Sequence.nesting_congr {s s' : Sequence Step} (h : s'.blank = s.blank) :
    s'.nesting = s.nesting := by
  have hblank (s : Sequence Step) : s.blank.nesting = s.nesting := Step.nesting_blank (.sequence s)
  rw [← hblank s', h, hblank s]

/-- Loops along the cursors are nested in each other. -/
theorem Step.entered_le_nesting (s : Step) : s.entered ≤ s.nesting := by
  induction s using Step.induction with
  | sequence s ih =>
    show s.entered ≤ s.nesting
    rw [Sequence.nesting_eq]
    cases hc : s.current? with
    | none => rw [Sequence.entered_eq, hc]; exact Nat.zero_le _
    | some c =>
      have hmem := List.mem_of_getElem? hc
      rw [Sequence.entered_of_current hc]
      exact Nat.le_trans (ih c hmem) (Step.nesting_le_nestingOfAll hmem)
  | loop l ih =>
    obtain ⟨_, _ | n, _, body⟩ := l
    · exact Nat.zero_le _
    · exact Nat.succ_le_succ ih
  | fire _ | vanish _ | mutation _ | wait _ => exact Nat.zero_le _

theorem Sequence.entered_le_nesting (s : Sequence Step) : s.entered ≤ s.nesting :=
  Step.entered_le_nesting (.sequence s)

/-! ## The work of a step from its start -/

mutual

/-- How much there is to do in a step from its start, at most. -/
def Step.span : Step → Nat
  | .sequence s => s.span
  | .loop l => l.span
  | .fire _ | .mutation _ | .wait _ | .vanish _ => 1
termination_by structural s => s

/-- How much there is to do in a sequence; each step has to be passed too. -/
def Sequence.span : Sequence Step → Nat
  | ⟨_, _, children, _⟩ => Step.spanOfAll children
termination_by structural s => s

/-- How much there is to do in a loop that runs as often as a loop can. -/
def LoopStep.span : LoopStep Step → Nat
  | ⟨_, _, _, body⟩ => Scalar.maxCount * (body.span + 1)
termination_by structural l => l

/-- How much there is to do in several steps. -/
def Step.spanOfAll : List Step → Nat
  | [] => 0
  | s :: rest => s.span + 1 + Step.spanOfAll rest
termination_by structural l => l

end

theorem Sequence.span_eq (s : Sequence Step) : s.span = Step.spanOfAll s.children := by
  cases s
  rfl

theorem LoopStep.span_eq (l : LoopStep Step) :
    l.span = Scalar.maxCount * (l.body.span + 1) := by
  cases l
  rfl

theorem Step.spanOfAll_map {l : List Step} {f : Step → Step}
    (h : ∀ s ∈ l, (f s).span = s.span) : Step.spanOfAll (l.map f) = Step.spanOfAll l := by
  induction l with
  | nil => rfl
  | cons s rest ih =>
    have hrest := ih fun c hc => h c (List.mem_cons_of_mem s hc)
    rw [List.map_cons, Step.spanOfAll, hrest, h s List.mem_cons_self, Step.spanOfAll]

theorem Step.span_blank (s : Step) : s.blank.span = s.span := by
  induction s using Step.induction with
  | sequence s ih =>
    show s.blank.span = s.span
    rw [Sequence.span_eq, Sequence.span_eq, Sequence.blank_eq]
    exact Step.spanOfAll_map ih
  | loop l ih =>
    rw [Step.blank_loop]
    show LoopStep.span _ = l.span
    rw [LoopStep.span_eq, LoopStep.span_eq]
    exact congrArg (fun n => Scalar.maxCount * (n + 1)) ih
  | fire _ | vanish _ | mutation _ | wait _ => rfl

theorem Sequence.span_congr {s s' : Sequence Step} (h : s'.blank = s.blank) : s'.span = s.span := by
  have hblank (s : Sequence Step) : s.blank.span = s.span := Step.span_blank (.sequence s)
  rw [← hblank s', h, hblank s]

/-! ## The work that is left -/

mutual

/-- How much is left to do in a step, at most. -/
def Step.work : Step → Nat
  | .sequence s => s.work
  | .loop l => l.work
  | .fire _ | .mutation _ | .wait _ | .vanish _ => 1
termination_by structural s => s

/-- How much is left to do in the steps from the cursor on. -/
def Sequence.work : Sequence Step → Nat
  | ⟨_, _, children, cursor⟩ => Step.workFrom children cursor
termination_by structural s => s

/-- How much is left to do in the iterations that are left, the one that was begun included. -/
def LoopStep.work : LoopStep Step → Nat
  | ⟨_, target, completed, body⟩ =>
    match target.getD Scalar.maxCount - completed with
    | 0 => 0
    | left + 1 => left * (body.span + 1) + (body.work + 1)
termination_by structural l => l

/-- How much is left to do in the steps from a place on. -/
def Step.workFrom : List Step → Nat → Nat
  | [], _ => 0
  | s :: rest, 0 => s.work + 1 + Step.workFrom rest 0
  | _ :: rest, n + 1 => Step.workFrom rest n
termination_by structural l => l

end

theorem Sequence.work_eq (s : Sequence Step) : s.work = Step.workFrom s.children s.cursor := by
  cases s
  rfl

/-- A loop that goes on has the rest of this iteration to do, and those after it. -/
theorem LoopStep.work_of_lt {l : LoopStep Step} {n : Nat} (ht : l.target = some n)
    (hn : l.completed < n) :
    l.work = (n - l.completed - 1) * (l.body.span + 1) + (l.body.work + 1) := by
  obtain ⟨_, _, completed, _⟩ := l
  cases ht
  obtain ⟨left, hleft⟩ : ∃ left, n - completed = left + 1 :=
    Nat.exists_eq_add_one.2 (Nat.sub_pos_of_lt hn)
  simp only [LoopStep.work, Option.getD_some, hleft, Nat.add_sub_cancel]

/-- A loop that is over has nothing left to do. -/
theorem LoopStep.work_of_le {l : LoopStep Step} {n : Nat} (ht : l.target = some n)
    (hn : n ≤ l.completed) : l.work = 0 := by
  obtain ⟨_, _, completed, _⟩ := l
  cases ht
  simp only [LoopStep.work, Option.getD_some, Nat.sub_eq_zero_of_le hn]

/-- All of its work is left to do in a pristine step. -/
theorem Step.Pristine.work {s : Step} (h : s.Pristine) : s.work = s.span := by
  induction s using Step.induction with
  | sequence s ih =>
    obtain ⟨_, _, children, cursor⟩ := s
    obtain ⟨rfl, hc⟩ := Sequence.pristine_iff.1 (show Sequence.Pristine _ from h)
    show Step.workFrom children 0 = Step.spanOfAll children
    have hall : ∀ c ∈ children, c.work = c.span := fun c hmem => ih c hmem (hc c hmem)
    clear h hc ih
    induction children with
    | nil => rfl
    | cons c rest ihrest =>
      rw [Step.workFrom, Step.spanOfAll, hall c List.mem_cons_self,
        ihrest fun c hmem => hall c (List.mem_cons_of_mem _ hmem)]
  | loop l ih =>
    obtain ⟨_, _, _, body⟩ := l
    obtain ⟨rfl, rfl, hb⟩ := LoopStep.pristine_iff.1 (show LoopStep.Pristine _ from h)
    have hbody : body.work = body.span := ih hb
    show (2 ^ 32 - 2) * (body.span + 1) + (body.work + 1) = (2 ^ 32 - 1) * (body.span + 1)
    rw [hbody]
    omega
  | fire _ | vanish _ | mutation _ | wait _ => rfl

/-- Replacing the step at a place changes the work that is left there; passing the place leaves what
comes after it. -/
theorem Step.workFrom_set {l : List Step} {n : Nat} {s : Step} (h : l[n]? = some s) :
    ∃ rest, Step.workFrom l n = s.work + 1 + rest ∧
      ∀ s', Step.workFrom (l.set n s') n = s'.work + 1 + rest ∧
        Step.workFrom (l.set n s') (n + 1) = rest := by
  induction l generalizing n with
  | nil => simp at h
  | cons a rest ih =>
    cases n with
    | zero =>
      obtain rfl : a = s := Option.some.inj h
      exact ⟨Step.workFrom rest 0, rfl, fun _ => ⟨rfl, rfl⟩⟩
    | succ n => exact ih (n := n) h

theorem Step.workFrom_map {l : List Step} {f : Step → Step} (n : Nat)
    (h : ∀ s ∈ l, (f s).work = s.work) : Step.workFrom (l.map f) n = Step.workFrom l n := by
  induction l generalizing n with
  | nil => rfl
  | cons s rest ih =>
    have hrest (n : Nat) := ih n fun c hc => h c (List.mem_cons_of_mem s hc)
    cases n with
    | zero => rw [List.map_cons, Step.workFrom, hrest, h s List.mem_cons_self, Step.workFrom]
    | succ n => exact hrest n

/-- Nothing is done when the parameters around a step change. -/
theorem Step.work_expire (s : Step) : s.expire.work = s.work := by
  induction s using Step.induction with
  | sequence s ih =>
    show s.expire.work = s.work
    rw [Sequence.work_eq, Sequence.work_eq, Sequence.expire_eq]
    split
    · exact Step.workFrom_map s.cursor ih
    · rfl
  | loop l ih =>
    obtain ⟨times, target, completed, body⟩ := l
    have hwork : body.expire.work = body.work := ih
    have hspan : body.expire.span = body.span := by
      have h := Step.blank_expire (.sequence body)
      exact Sequence.span_congr (Step.sequence.inj h)
    show LoopStep.work ⟨times, target, completed, body.expire⟩ = LoopStep.work ⟨times, target, completed, body⟩
    simp only [LoopStep.work, hwork, hspan]
  | fire _ | vanish _ | mutation _ | wait _ => rfl

/-- A loop has no more to do once it is known how often it runs. -/
theorem LoopStep.work_enter_le {l : LoopStep Step} {n : Nat} (ht : l.target = none)
    (hn : n ≤ Scalar.maxCount) : LoopStep.work { l with target := some n } ≤ l.work := by
  obtain ⟨_, _, completed, body⟩ := l
  cases ht
  simp only [LoopStep.work, Option.getD_some, Option.getD_none]
  have hle : n - completed ≤ Scalar.maxCount - completed := Nat.sub_le_sub_right hn completed
  generalize n - completed = left at hle
  generalize Scalar.maxCount - completed = most at hle
  cases left with
  | zero => exact Nat.zero_le _
  | succ left =>
    cases most with
    | zero => omega
    | succ most =>
      have := Nat.mul_le_mul_right (body.span + 1) (Nat.le_of_succ_le_succ hle)
      simp only
      omega

end Barrage
