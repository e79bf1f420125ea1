import Barrage.Step.Cost
import Barrage.Step.Tidy
import Barrage.Turn.Leaves

/-!
# Turns that pass steps

A turn that has no error and leaves more steps to run was not held up anywhere: the leaf or the loop that it
came to is done.

* `Contract.passes`: such a turn of a sequence leaves one turn fewer due and the sequence tidy, and a loop has
  run as often as it should.
* `Sequence.due_advance`, `Sequence.tidy_advance`: every turn is like that.
* `Sequence.Reaches`: the leaf or loop that a turn of a sequence comes to; `Reaches.advance`: the turn is that
  of it.
-/

namespace Barrage

variable {φ ρ α : Type}

/-! ## Tidy sequences -/

namespace Sequence

variable {s : Sequence Step}

theorem tidy_withScope (h : (Step.sequence s).Tidy) (scope : Scope) (isNew : Bool) :
    (Step.sequence (s.withScope scope isNew)).Tidy := by
  cases isNew with
  | true =>
    refine tidy_expireAll h (fun c hc => ((tidy_iff.1 h).2 c hc).expire) rfl ?_
    rw [withScope, if_pos rfl, Step.expireAll_eq_map]
  | false =>
    obtain ⟨later, current⟩ := tidy_iff.1 h
    exact .entered later current

theorem due_withScope (s : Sequence Step) (scope : Scope) (isNew : Bool) :
    (s.withScope scope isNew).due = s.due := by
  rw [due_eq, due_eq, withScope]
  cases isNew with
  | true =>
    rw [if_pos rfl, Step.expireAll_eq_map]
    exact Step.dueFrom_map s.cursor fun c _ => c.due_expire
  | false => rfl

variable {c : Step} {o : Outcome Step (Turn φ ρ α)}

/-- The cursor passes a step that is done and stays at any other. -/
theorem settle_of_ok (s : Sequence Step) (he : o.error = none) :
    (s.settle o).step = { s with
      children := s.children.set s.cursor o.step
      cursor := if o.step.isDone then s.cursor + 1 else s.cursor } := by
  unfold settle
  rw [he]
  simp only
  split <;> rfl

theorem tidy_settle (h : (Step.sequence s).Tidy) (he : o.error = none)
    (ho : o.step.isDone = false → o.step.Tidy) : (Step.sequence (s.settle o).step).Tidy := by
  obtain ⟨later, -⟩ := tidy_iff.1 h
  have hlater {i : Nat} {c : Step} (hi : s.cursor < i) (hc : (s.children.set s.cursor o.step)[i]? = some c) :
      c.blank = c := by
    rw [List.getElem?_set_ne (Nat.ne_of_lt hi)] at hc
    exact later i c hi hc
  rw [settle_of_ok s he]
  rcases hd : o.step.isDone with _ | _
  · refine tidy_iff.2 ⟨fun i c hi hc => hlater hi hc, fun c hc => ?_⟩
    obtain ⟨-, rfl⟩ : s.cursor < s.children.length ∧ o.step = c := by
      simpa [current?, List.getElem?_set] using hc
    exact ho hd
  · refine tidy_iff.2 ⟨fun i c hi hc => hlater (Nat.lt_of_succ_lt hi) hc, fun c hc => .fresh ?_⟩
    exact hlater (Nat.lt_succ_self _) hc

/-- A turn of the step under the cursor that left one fewer due, or passed it when one was due. -/
theorem due_settle (hc : s.current? = some c) (he : o.error = none)
    (hdone : o.step.isDone = true → c.due = 1) (hgoes : o.step.isDone = false → o.step.due + 1 = c.due) :
    (s.settle o).step.due + 1 = s.due := by
  obtain ⟨rest, hdue, hset⟩ := Step.dueFrom_set hc
  rw [settle_of_ok s he, due_eq, due_eq s, hdue]
  rcases hd : o.step.isDone with _ | _
  · simp only [Bool.false_eq_true, if_false, (hset _).1]
    have := hgoes hd
    omega
  · simp only [if_true, (hset _).2]
    have := hdone hd
    omega

end Sequence

/-! ## The contract -/

/-- A turn that has no error and leaves more steps to run passes a step: one turn fewer is due in a sequence,
and a loop has run as often as it should. -/
def Contract.passes : Contract φ ρ α where
  sequence _ s _ o := o.error = none → o.turn.mustYield = false →
    (s.isDone = true → o.step = s) ∧ (s.isDone = false → o.step.due + 1 = s.due) ∧
      ((Step.sequence s).Tidy → (Step.sequence o.step).Tidy)
  step _ s _ o := o.error = none → o.turn.mustYield = false →
    (o.step.isDone = true → s.due = 1) ∧
      (o.step.isDone = false → o.step.due + 1 = s.due ∧ (s.Tidy → o.step.Tidy))
  rounds _ l _ o := o.error = none → o.turn.mustYield = false →
    ∀ n, l.target = some n → o.step.target = some n ∧ o.step.completed = max l.completed n

/-- A loop that was entered and left more steps to run is done. -/
theorem Contract.passes_loop {params : Params} {l : LoopStep Step} {n : Nat} {t t' : Turn φ ρ α}
    {o : Outcome (LoopStep Step) (Turn φ ρ α)} (hl : l.target = some n) (ho : passes.rounds params l t o)
    (l' : LoopStep Step) : passes.step params (.loop l') t' (o.map .loop) := by
  intro he hy
  obtain ⟨ht, hcompleted⟩ := ho he hy n hl
  have hd : o.step.isDone = true := by
    rw [LoopStep.isDone, ht, hcompleted]
    exact decide_eq_true (Nat.le_max_right ..)
  exact ⟨fun _ => rfl, fun hundone => by cases hd.symm.trans hundone⟩

variable [RandomSource ρ] [BulletFactory φ α]

/-- A leaf that has no error and leaves more steps to run is done. -/
theorem Step.isDone_of_leaf {stage : Stage} {params : Params} {step : Step} {t : Turn φ ρ α}
    {advance : Advance φ ρ α} {o : Outcome Step (Turn φ ρ α)} (hl : step.kind.isLeaf = true)
    (ho : step.dispatch advance stage params t = o) (he : o.error = none) (hy : o.turn.mustYield = false) :
    o.step.isDone = true := by
  rcases leaf_cases hl ho with ⟨-, ⟨e, he'⟩, -⟩ | ⟨-, clock, h⟩
  · cases he.symm.trans he'
  · have hb : (t.blocked || !o.step.isDone) = false := h.blocked.symm.trans (Bool.or_eq_false_iff.1 hy).1
    simpa using (Bool.or_eq_false_iff.1 hb).2

theorem Contract.passes_leaf {stage : Stage} {params : Params} {step : Step} {t : Turn φ ρ α}
    {o : Outcome Step (Turn φ ρ α)} (hl : step.kind.isLeaf = true)
    (ho : step.dispatch (Sequence.advance stage) stage params t = o) : passes.step params step t o := by
  intro he hy
  have hd := Step.isDone_of_leaf hl ho he hy
  refine ⟨fun _ => ?_, fun hundone => by cases hd.symm.trans hundone⟩
  cases step with
  | sequence _ | loop _ => cases hl
  | fire _ | mutation _ | wait _ | vanish _ => rfl

theorem Contract.passes_kept (stage : Stage) : (passes (φ := φ) (ρ := ρ) (α := α)).Kept stage where
  done hd := fun _ _ => ⟨fun _ => rfl, fun hundone => (by cases hd.symm.trans hundone), id⟩
  scopeFails _ _ := nofun
  current {_ s _ scope isNew _ c o} hd _ hc ho := by
    intro he hy
    rw [Sequence.error_settle] at he
    rw [Sequence.turn_settle] at hy
    obtain ⟨hdone, hgoes⟩ := ho he hy
    refine ⟨fun h => (by cases hd.symm.trans h), fun _ => ?_, fun h => ?_⟩
    · rw [← s.due_withScope scope isNew]
      exact Sequence.due_settle hc he hdone fun hu => (hgoes hu).1
    · have htidy := Sequence.tidy_withScope h scope isNew
      exact Sequence.tidy_settle htidy he fun hu => (hgoes hu).2 ((Sequence.tidy_iff.1 htidy).2 c hc)
  nested {_ s _ o} ho := by
    intro he hy
    obtain ⟨hsame, hdue, htidy⟩ := ho he hy
    show (o.step.isDone = true → max 1 s.due = 1) ∧
      (o.step.isDone = false → max 1 o.step.due + 1 = max 1 s.due ∧ (_ → (Step.sequence o.step).Tidy))
    have hpos {s : Sequence Step} (hd : s.isDone = false) : s.due ≠ 0 := by
      rw [Ne, Sequence.due_eq_zero_iff, hd]
      exact Bool.false_ne_true
    -- A sequence without steps counts for one turn where it is a step itself, hence the two cases.
    rcases hd : s.isDone with _ | _
    · have hone := hdue hd
      refine ⟨fun hd' => ?_, fun hd' => ⟨?_, htidy⟩⟩
      · have := Sequence.due_eq_zero_iff.2 hd'
        omega
      · have := hpos hd'
        omega
    · rw [hsame hd]
      refine ⟨fun _ => ?_, fun hd' => by cases hd.symm.trans hd'⟩
      rw [Sequence.due_eq_zero_iff.2 hd]
      rfl
  fire _ _ _ := passes_leaf rfl rfl
  mutation _ _ _ := passes_leaf rfl rfl
  wait _ _ _ := passes_leaf rfl rfl
  -- These hold the turn up, or fail.
  vanish _ triggered t := fun _ hy => by cases (Bool.or_eq_false_iff.1 hy).2
  countFails _ _ := nofun
  entered _ _ ho := passes_loop rfl ho _
  resumed hl ho := passes_loop hl ho _
  ended {_ l _ n} hl hn := by
    intro _ _ n' hl'
    obtain rfl := Option.some.inj (hl.symm.trans hl')
    exact ⟨hl, (Nat.max_eq_left hn).symm⟩
  exhausted _ _ _ := fun _ hy => by cases hy
  fails _ _ _ _ _ := nofun
  yields _ _ _ _ _ hy := fun _ hy' => by cases hy.symm.trans hy'
  again {_ l _ n o o'} hl hn _ _ _ _ hr := by
    intro he hy n' hl'
    obtain rfl := Option.some.inj (hl.symm.trans hl')
    obtain ⟨ht, hcompleted⟩ := hr he hy n (by simpa using hl)
    refine ⟨ht, hcompleted.trans ?_⟩
    -- A round counts at most one iteration, and fewer than the target were counted before it.
    have hle : ({ l with body := o.step } : LoopStep Step).settle.completed ≤ l.completed + 1 := by
      unfold LoopStep.settle
      split <;> simp
    omega

section Advance

variable {stage : Stage} {params : Params} {s : Sequence Step} {t : Turn φ ρ α}

/-- A turn of a sequence that was not held up leaves one turn fewer due. -/
theorem Sequence.due_advance (hd : s.isDone = false) (he : (s.advance stage params t).error = none)
    (hy : (s.advance stage params t).turn.mustYield = false) :
    (s.advance stage params t).step.due + 1 = s.due :=
  ((Contract.passes_kept stage).advance params s t he hy).2.1 hd

/-- A turn of a sequence that was not held up leaves it tidy. -/
theorem Sequence.tidy_advance (h : (Step.sequence s).Tidy) (he : (s.advance stage params t).error = none)
    (hy : (s.advance stage params t).turn.mustYield = false) :
    (Step.sequence (s.advance stage params t).step).Tidy :=
  ((Contract.passes_kept stage).advance params s t he hy).2.2 h

end Advance

/-! ## Where a turn leads -/

/-- A turn of a sequence comes to a step that is no sequence: the parameters around it, the step, and the turn
before it has its own. -/
inductive Sequence.Reaches (stage : Stage) :
    Params → Sequence Step → Turn φ ρ α → Params → Step → Turn φ ρ α → Prop where
  | here {params s t scope isNew t₁ c} (hd : s.isDone = false)
    (hr : t.resolve stage params s.scope = (.ok (scope, isNew), t₁))
    (hc : (s.withScope scope isNew).current? = some c) (hk : c.kind ≠ .sequence) :
    Reaches stage params s t (scope.params params) c t₁
  | nested {params s t scope isNew t₁ r params' c t₂} (hd : s.isDone = false)
    (hr : t.resolve stage params s.scope = (.ok (scope, isNew), t₁))
    (hc : (s.withScope scope isNew).current? = some (.sequence r))
    (h : Reaches stage (scope.params params) r t₁ params' c t₂) :
    Reaches stage params s t params' c t₂

namespace Sequence.Reaches

variable {stage : Stage} {params params' : Params} {s : Sequence Step} {c : Step} {t t' : Turn φ ρ α}

/-- The turn of a sequence is that of the step that it comes to. -/
theorem advance (h : s.Reaches stage params t params' c t') :
    let o := c.dispatch (Sequence.advance stage) stage params' t'
    (s.advance stage params t).turn = o.turn ∧ (s.advance stage params t).error = o.error := by
  induction h with
  | here hd hr hc hk =>
    rw [advance_of_current hd hr hc, turn_settle, error_settle]
    exact ⟨rfl, rfl⟩
  | nested hd hr hc _ ih => rwa [advance_of_current hd hr hc, turn_settle, error_settle]

omit [BulletFactory φ α] in
/-- On the way to a step only formulas are evaluated. -/
theorem draws (h : s.Reaches stage params t params' c t') : t.Draws t' := by
  induction h with
  | here _ hr _ _ => exact .of_resolve hr
  | nested _ hr _ _ ih => exact (Turn.Draws.of_resolve hr).trans ih

omit [BulletFactory φ α] in
/-- In a tidy sequence a turn comes to a step that was not entered yet. -/
theorem blank (h : s.Reaches stage params t params' c t') (hs : (Step.sequence s).Tidy) : c.blank = c := by
  induction h with
  | here _ _ hc hk => exact ((tidy_iff.1 (tidy_withScope hs _ _)).2 _ hc).blank hk
  | nested _ _ hc _ ih => exact ih ((tidy_iff.1 (tidy_withScope hs _ _)).2 _ hc)

end Sequence.Reaches

end Barrage
