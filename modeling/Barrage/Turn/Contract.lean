import Barrage.Turn.Lemmas

/-!
# Contracts of turns

A turn of a tree is made of turns of its parts. What is to be shown of every turn is stated as a
contract, one relation for each kind of part, and shown once for each thing a part can do.

* `Contract`: what is claimed of the turns of sequences, of steps and of loops that were entered;
  `Contract.and` claims two things.
* `Contract.Kept`: the contract holds of whatever a part can do, given that it holds of the turns of
  the parts below. The fields are the cases: a sequence is done, fails to evaluate its scope or gives
  a turn to a step; a loop fails to evaluate its count, is entered or goes on, and then has ended,
  finds no iterations left, or has a round.
* `Contract.Kept.advance`: a contract that is kept holds of every turn.
-/

namespace Barrage

/-- What is claimed of turns: a relation between the parameters around a part, the part, the turn
before, and the outcome. -/
structure Contract (φ ρ α : Type) where
  sequence : Params → Sequence Step → Turn φ ρ α → Outcome (Sequence Step) (Turn φ ρ α) → Prop
  step : Params → Step → Turn φ ρ α → Outcome Step (Turn φ ρ α) → Prop
  /-- A loop that has been entered. -/
  rounds : Params → LoopStep Step → Turn φ ρ α → Outcome (LoopStep Step) (Turn φ ρ α) → Prop

namespace Contract

variable {φ ρ α : Type}

/-- Two contracts at once. One of them may be used to keep the other. -/
def and (c c' : Contract φ ρ α) : Contract φ ρ α where
  sequence params s t o := c.sequence params s t o ∧ c'.sequence params s t o
  step params s t o := c.step params s t o ∧ c'.step params s t o
  rounds params l t o := c.rounds params l t o ∧ c'.rounds params l t o

variable [RandomSource ρ] [BulletFactory φ α]

/-- The contract holds of what each part can do if it holds of the turns of the parts below. -/
structure Kept (c : Contract φ ρ α) (stage : Stage) : Prop where
  done {params s t} (hd : s.isDone = true) : c.sequence params s t ⟨s, t, none⟩
  scopeFails {params s t e t₁} (hd : s.isDone = false)
    (hr : t.resolve stage params s.scope = (.error e, t₁)) :
    c.sequence params s t ⟨s, t₁, some (.evaluation e)⟩
  current {params s t scope isNew t₁ step o} (hd : s.isDone = false)
    (hr : t.resolve stage params s.scope = (.ok (scope, isNew), t₁))
    (hc : (s.withScope scope isNew).current? = some step)
    (ho : c.step (scope.params params) step t₁ o) :
    c.sequence params s t ((s.withScope scope isNew).settle o)
  nested {params s t o} (ho : c.sequence params s t o) :
    c.step params (.sequence s) t (o.map .sequence)
  fire (params f t) : c.step params (.fire f) t ((f.dispatch stage params t).map .fire)
  mutation (params m t) :
    c.step params (.mutation m) t ((m.dispatch stage params t).map .mutation)
  wait (params w t) : c.step params (.wait w) t ((w.dispatch stage params t).map .wait)
  vanish (params triggered t) :
    c.step params (.vanish triggered) t
      ⟨.vanish true, { t.log (.began .vanish) with removed := true }.leave .vanish false none, none⟩
  countFails {params l t e t₁} (hl : l.target = none)
    (hr : t.eval stage params l.times = (.error e, t₁)) :
    c.step params (.loop l) t ⟨.loop l, t₁, some (.evaluation e)⟩
  entered {params l t x t₁ o} (hl : l.target = none)
    (hr : t.eval stage params l.times = (.ok x, t₁))
    (ho : c.rounds params { l with target := some x.count.toNat } t₁ o) :
    c.step params (.loop l) t (o.map .loop)
  resumed {params l t o n} (hl : l.target = some n) (ho : c.rounds params l t o) :
    c.step params (.loop l) t (o.map .loop)
  ended {params l t n} (hl : l.target = some n) (hn : n ≤ l.completed) :
    c.rounds params l t ⟨l, t, none⟩
  exhausted {params l t n} (hl : l.target = some n) (hn : l.completed < n) (hb : t.budget = 0) :
    c.rounds params l t ⟨l, t.exhaust, none⟩
  fails {params l t n o e} (hl : l.target = some n) (hn : l.completed < n) (hb : t.budget ≠ 0)
    (ho : c.sequence params l.body t.spend o) (he : o.error = some e) :
    c.rounds params l t ⟨{ l with body := o.step }, o.turn, some e⟩
  yields {params l t n o} (hl : l.target = some n) (hn : l.completed < n) (hb : t.budget ≠ 0)
    (ho : c.sequence params l.body t.spend o) (he : o.error = none) (hy : o.turn.mustYield = true) :
    c.rounds params l t ⟨({ l with body := o.step } : LoopStep Step).settle, o.turn, none⟩
  again {params l t n o o'} (hl : l.target = some n) (hn : l.completed < n) (hb : t.budget ≠ 0)
    (ho : c.sequence params l.body t.spend o) (he : o.error = none) (hy : o.turn.mustYield = false)
    (hr : c.rounds params ({ l with body := o.step } : LoopStep Step).settle o.turn o') :
    c.rounds params l t o'

variable {c c' : Contract φ ρ α} {stage : Stage}

theorem Kept.and (h : c.Kept stage) (h' : c'.Kept stage) : (c.and c').Kept stage where
  done hd := ⟨h.done hd, h'.done hd⟩
  scopeFails hd hr := ⟨h.scopeFails hd hr, h'.scopeFails hd hr⟩
  current hd hr hc ho := ⟨h.current hd hr hc ho.1, h'.current hd hr hc ho.2⟩
  nested ho := ⟨h.nested ho.1, h'.nested ho.2⟩
  fire params f t := ⟨h.fire params f t, h'.fire params f t⟩
  mutation params m t := ⟨h.mutation params m t, h'.mutation params m t⟩
  wait params w t := ⟨h.wait params w t, h'.wait params w t⟩
  vanish params triggered t := ⟨h.vanish params triggered t, h'.vanish params triggered t⟩
  countFails hl hr := ⟨h.countFails hl hr, h'.countFails hl hr⟩
  entered hl hr ho := ⟨h.entered hl hr ho.1, h'.entered hl hr ho.2⟩
  resumed hl ho := ⟨h.resumed hl ho.1, h'.resumed hl ho.2⟩
  ended hl hn := ⟨h.ended hl hn, h'.ended hl hn⟩
  exhausted hl hn hb := ⟨h.exhausted hl hn hb, h'.exhausted hl hn hb⟩
  fails hl hn hb ho he := ⟨h.fails hl hn hb ho.1 he, h'.fails hl hn hb ho.2 he⟩
  yields hl hn hb ho he hy := ⟨h.yields hl hn hb ho.1 he hy, h'.yields hl hn hb ho.2 he hy⟩
  again hl hn hb ho he hy hr :=
    ⟨h.again hl hn hb ho.1 he hy hr.1, h'.again hl hn hb ho.2 he hy hr.2⟩

omit [RandomSource ρ] [BulletFactory φ α] in
@[simp] theorem LoopStep.target_settle (l : LoopStep Step) : l.settle.target = l.target := by
  unfold LoopStep.settle
  split <;> rfl

/-- The rounds of a loop keep a contract that the turns of its body keep. -/
theorem Kept.iterate (h : c.Kept stage) {advance : Advance φ ρ α} (ht : advance.Tame) {height : Nat}
    (hb : ∀ params s t, s.height = height → c.sequence params s t (advance params s t))
    (params : Params) {rounds n : Nat} (l : LoopStep Step) (t : Turn φ ρ α)
    (hl : l.target = some n) (hh : l.height = height) (hr : t.budget ≤ rounds) :
    c.rounds params l t (LoopStep.iterate advance params rounds l t) := by
  have hbody (l : LoopStep Step) (hh : l.height = height) : l.body.height = height := by
    rwa [← LoopStep.height_eq]
  induction rounds generalizing l t with
  | zero =>
    rw [LoopStep.iterate]
    by_cases hn : n ≤ l.completed
    · rw [if_pos (by simpa [LoopStep.isDone, hl] using hn)]
      exact h.ended hl hn
    · rw [if_neg (by simpa [LoopStep.isDone, hl] using hn)]
      exact h.exhausted hl (by omega) (by omega)
  | succ rounds ih =>
    rw [LoopStep.iterate]
    by_cases hn : n ≤ l.completed
    · rw [if_pos (by simpa [LoopStep.isDone, hl] using hn)]
      exact h.ended hl hn
    rw [if_neg (by simpa [LoopStep.isDone, hl] using hn)]
    by_cases h0 : t.budget = 0
    · rw [if_pos h0]
      exact h.exhausted hl (by omega) h0
    rw [if_neg h0]
    have ho := hb params l.body t.spend (hbody l hh)
    obtain ⟨hs, hle⟩ := ht params l.body t.spend
    rw [Turn.budget_spend] at hle
    simp only
    split
    · next e he => exact h.fails hl (by omega) h0 ho he
    · next he =>
      by_cases hy : (advance params l.body t.spend).turn.mustYield = true
      · rw [if_pos hy]
        exact h.yields hl (by omega) h0 ho he hy
      · rw [if_neg hy]
        refine h.again hl (by omega) h0 ho he (by simpa using hy) (ih _ _ ?_ ?_ (by omega))
        · simpa using hl
        · simp only [LoopStep.height_settle]
          rw [LoopStep.height_eq]
          exact hs.trans (hbody l hh)

/-- A turn of a step keeps a contract that the turns of the sequences in it keep. -/
theorem Kept.dispatch (h : c.Kept stage) {advance : Advance φ ρ α} (ht : advance.Tame)
    (params : Params) (step : Step) (t : Turn φ ρ α)
    (hb : ∀ params s t, s.height = step.height → c.sequence params s t (advance params s t)) :
    c.step params step t (step.dispatch advance stage params t) := by
  cases step with
  | sequence s => exact h.nested (hb params s t rfl)
  | fire f => exact h.fire params f t
  | mutation m => exact h.mutation params m t
  | wait w => exact h.wait params w t
  | vanish triggered => exact h.vanish params triggered t
  | loop l =>
    rw [Step.dispatch, LoopStep.drain]
    split
    · next n hl => exact h.resumed hl (h.iterate ht hb params l t hl rfl (Nat.le_refl _))
    · next hl =>
      rcases hr : t.eval stage params l.times with ⟨e | x, t₁⟩
      · exact h.countFails hl hr
      · refine h.entered hl hr (h.iterate ht hb params _ t₁ rfl ?_ (Nat.le_refl _))
        simp [LoopStep.height_eq, Step.height]

/-- A contract that is kept holds of every turn. -/
theorem Kept.advance (h : c.Kept stage) (params : Params) (s : Sequence Step) (t : Turn φ ρ α) :
    c.sequence params s t (s.advance stage params t) := by
  induction hh : s.height using Nat.strongRecOn generalizing params s t with
  | _ height ih =>
    rcases hd : s.isDone with _ | _
    · rcases hr : t.resolve stage params s.scope with ⟨e | ⟨scope, isNew⟩, t₁⟩
      · rw [Sequence.advance_of_scope_error hd hr]
        exact h.scopeFails hd hr
      · obtain ⟨step, hc⟩ := Sequence.current?_withScope hd scope isNew
        rw [Sequence.advance_of_current hd hr hc]
        refine h.current hd hr hc (h.dispatch (Sequence.advance_tame stage) _ step t₁ ?_)
        intro params r t hr
        exact ih r.height (by have := Sequence.height_of_current? hc; omega) params r t rfl
    · rw [Sequence.advance_of_isDone stage params s t hd]
      exact h.done hd

end Contract

end Barrage
