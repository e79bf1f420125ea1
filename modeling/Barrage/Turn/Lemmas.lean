import Barrage.Step.Lemmas
import Barrage.Turn.Advance

/-!
# Laws of turns

* `Turn.Draws`: all that evaluating changes; `Turn.draws_eval` and its like say so of each part of
  a step that evaluates formulas.
* `FireStep.dispatch_cases` and its like: what the turn of a leaf does.
* `Advance.Tame`: a way of advancing that keeps heights and gives no iterations back;
  `Sequence.advanceWithin_tame` says that every turn is tame.
* `LoopStep.iterate_rounds`: more rounds than there are iterations change nothing.
* `Sequence.advanceWithin_eq_advance`: a larger bound than the height changes nothing, so `advance`
  is the turn without a bound.
* `Sequence.advance_of_current`: a turn is that of the step under the cursor.
-/

namespace Barrage

variable {φ ρ α : Type}

/-! ## Evaluating changes nothing but the random source -/

namespace Turn

/-- Between two turns nothing happened but evaluations: the random source may have gone on, and the
journal tells of the formulas. -/
structure Draws (t t' : Turn φ ρ α) : Prop where
  owner : t'.owner = t.owner
  factory : t'.factory = t.factory
  budget : t'.budget = t.budget
  spawned : t'.spawned = t.spawned
  last : t'.last = t.last
  removed : t'.removed = t.removed
  blocked : t'.blocked = t.blocked
  journal : ∃ es : List Event, t'.journal.toList = t.journal.toList ++ es ∧
    ∀ e ∈ es, ∃ f params, e = .evaluated f params

@[simp] theorem budget_spend (t : Turn φ ρ α) : t.spend.budget = t.budget - 1 := rfl

@[simp] theorem budget_exhaust (t : Turn φ ρ α) : t.exhaust.budget = t.budget := rfl

theorem Draws.refl (t : Turn φ ρ α) : Draws t t :=
  ⟨rfl, rfl, rfl, rfl, rfl, rfl, rfl, [], by simp, by simp⟩

theorem Draws.trans {t t' t'' : Turn φ ρ α} (h : Draws t t') (h' : Draws t' t'') :
    Draws t t'' := by
  obtain ⟨es, he, hm⟩ := h.journal
  obtain ⟨es', he', hm'⟩ := h'.journal
  refine ⟨h'.owner.trans h.owner, h'.factory.trans h.factory, h'.budget.trans h.budget,
    h'.spawned.trans h.spawned, h'.last.trans h.last, h'.removed.trans h.removed,
    h'.blocked.trans h.blocked, es ++ es', by rw [he', he, List.append_assoc], ?_⟩
  intro e h
  rcases List.mem_append.1 h with h | h
  · exact hm e h
  · exact hm' e h

variable [RandomSource ρ]

theorem draws_eval (stage : Stage) (params : Params) (f : Formula) (t : Turn φ ρ α) :
    Draws t (t.eval stage params f).2 := by
  refine ⟨rfl, rfl, rfl, rfl, rfl, rfl, rfl, [.evaluated f params], ?_, ?_⟩
  · show (t.journal.push (.evaluated f params)).toList = _
    rw [Array.toList_push]
  · intro e h
    exact ⟨f, params, List.mem_singleton.1 h⟩

theorem draws_evalAll (stage : Stage) (params : Params) (fs : List Formula) (t : Turn φ ρ α) :
    Draws t (t.evalAll stage params fs).2 := by
  induction fs generalizing t with
  | nil => exact .refl t
  | cons f rest ih =>
    have h := draws_eval stage params f t
    rw [evalAll]
    rcases hr : t.eval stage params f with ⟨_ | x, t1⟩ <;> rw [hr] at h
    · exact h
    · have h1 := ih t1
      simp only
      rcases hr1 : t1.evalAll stage params rest with ⟨_ | xs, t2⟩ <;> rw [hr1] at h1
      · exact h.trans h1
      · exact h.trans h1

theorem draws_resolve (stage : Stage) (outer : Params) (scope : Scope) (t : Turn φ ρ α) :
    Draws t (t.resolve stage outer scope).2 := by
  rcases scope with _ | ⟨args, values, _ | _⟩
  · exact .refl t
  · have h := draws_evalAll stage outer args t
    rw [resolve]
    rcases hr : t.evalAll stage outer args with ⟨_ | xs, t1⟩ <;> rw [hr] at h <;> exact h
  · exact .refl t

theorem Draws.of_eval {stage : Stage} {params : Params} {f : Formula} {t t' : Turn φ ρ α}
    {x : Except EvalError Scalar} (h : t.eval stage params f = (x, t')) : t.Draws t' := by
  have hd := draws_eval stage params f t
  rwa [h] at hd

theorem Draws.of_resolve {stage : Stage} {outer : Params} {scope : Scope} {t t' : Turn φ ρ α}
    {x : Except EvalError (Scope × Bool)} (h : t.resolve stage outer scope = (x, t')) :
    t.Draws t' := by
  have hd := draws_resolve stage outer scope t
  rwa [h] at hd

theorem draws_heading (stage : Stage) (params : Params) (spec : DirectionSpec)
    (t : Turn φ ρ α) : Draws t (t.heading stage params spec).2 := by
  have h := draws_eval stage params spec.value t
  rw [heading]
  rcases hr : t.eval stage params spec.value with ⟨_ | _, t1⟩ <;> rw [hr] at h <;> exact h

theorem draws_pace (stage : Stage) (params : Params) (spec : SpeedSpec) (t : Turn φ ρ α) :
    Draws t (t.pace stage params spec).2 := by
  have h := draws_eval stage params spec.value t
  rw [pace]
  rcases hr : t.eval stage params spec.value with ⟨_ | _, t1⟩ <;> rw [hr] at h <;> exact h

theorem draws_bulletParams (stage : Stage) (params : Params) (f : FireStep) (t : Turn φ ρ α) :
    Draws t (t.bulletParams stage params f).2 := by
  rw [bulletParams]
  split
  · exact draws_evalAll ..
  · exact .refl t

theorem draws_bulletHeading (stage : Stage) (params inner : Params) (f : FireStep)
    (t : Turn φ ρ α) : Draws t (t.bulletHeading stage params inner f).2 := by
  rw [bulletHeading]
  split
  · exact draws_heading ..
  · exact draws_heading ..
  · exact .refl t

theorem draws_bulletPace (stage : Stage) (params inner : Params) (f : FireStep)
    (t : Turn φ ρ α) : Draws t (t.bulletPace stage params inner f).2 := by
  rw [bulletPace]
  split
  · exact draws_pace ..
  · exact draws_pace ..
  · exact .refl t

theorem draws_request (stage : Stage) (params : Params) (f : FireStep) (t : Turn φ ρ α) :
    Draws t (t.request stage params f).2 := by
  have h1 := draws_bulletParams stage params f t
  rw [request]
  rcases hr1 : t.bulletParams stage params f with ⟨_ | inner, t1⟩ <;> rw [hr1] at h1
  · exact h1
  · have h2 := draws_bulletHeading stage params inner f t1
    simp only
    rcases hr2 : t1.bulletHeading stage params inner f with ⟨_ | x, t2⟩ <;> rw [hr2] at h2
    · exact h1.trans h2
    · have h3 := draws_bulletPace stage params inner f t2
      simp only
      rcases hr3 : t2.bulletPace stage params inner f with ⟨_ | y, t3⟩ <;> rw [hr3] at h3
      · exact h1.trans (h2.trans h3)
      · exact h1.trans (h2.trans h3)

theorem draws_pauseFor (stage : Stage) (params : Params) (w : WaitStep) (t : Turn φ ρ α) :
    Draws t (t.pauseFor stage params w).2 := by
  rw [pauseFor]
  split
  · exact .refl t
  · exact draws_eval ..

theorem draws_settle (stage : Stage) (params : Params) (m : MutationStep) (t : Turn φ ρ α) :
    Draws t (t.settle stage params m).2 := by
  rw [settle]
  split
  · exact .refl t
  · have h1 := draws_eval stage params m.term t
    rcases hr1 : t.eval stage params m.term with ⟨_ | _, t1⟩ <;> rw [hr1] at h1
    · exact h1
    · have h2 := draws_eval stage params m.steering.value t1
      simp only
      rcases hr2 : t1.eval stage params m.steering.value with ⟨_ | _, t2⟩ <;> rw [hr2] at h2
      · exact h1.trans h2
      · exact h1.trans h2

end Turn

/-! ## The turns of leaves -/

section Leaves

variable [RandomSource ρ] (stage : Stage) (params : Params) (t : Turn φ ρ α)

/-- A pause fails to evaluate its duration, or is credited with the time of the tick. -/
theorem WaitStep.dispatch_cases (w : WaitStep) :
    (∃ e t', (t.log (.began .wait)).pauseFor stage params w = (.error e, t') ∧
      (t.log (.began .wait)).Draws t' ∧
      w.dispatch stage params t = ⟨w, t', some (.evaluation e)⟩) ∨
    ∃ d t' w', (t.log (.began .wait)).pauseFor stage params w = (.ok d, t') ∧
      (t.log (.began .wait)).Draws t' ∧
      w' = { w with duration := some d, elapsed := w.elapsed + stage.frame.delta } ∧
      w.dispatch stage params t = ⟨w', t'.leave .wait (!w'.isDone) (some ⟨w.elapsed, d⟩), none⟩ := by
  have h := Turn.draws_pauseFor stage params w (t.log (.began .wait))
  rw [dispatch]
  rcases hr : (t.log (.began .wait)).pauseFor stage params w with ⟨e | d, t'⟩ <;> rw [hr] at h
  · exact .inl ⟨e, t', rfl, h, rfl⟩
  · exact .inr ⟨d, t', _, rfl, h, rfl, rfl⟩

/-- A mutation fails to settle its glide, or is credited with the time of the tick and writes the
owner. -/
theorem MutationStep.dispatch_cases (m : MutationStep) :
    (∃ e t', (t.log (.began .mutation)).settle stage params m = (.error e, t') ∧
      (t.log (.began .mutation)).Draws t' ∧
      m.dispatch stage params t = ⟨m, t', some (.evaluation e)⟩) ∨
    ∃ g t' m', (t.log (.began .mutation)).settle stage params m = (.ok g, t') ∧
      (t.log (.began .mutation)).Draws t' ∧
      m' = { m with glide := some g, elapsed := m.elapsed + stage.frame.delta } ∧
      m.dispatch stage params t
        = ⟨m', ({ t' with owner := m.steering.write t'.owner (g.valueAt m'.elapsed) }.log
            .steered).leave .mutation (!m'.isDone) (some ⟨m.elapsed, g.duration⟩), none⟩ := by
  have h := Turn.draws_settle stage params m (t.log (.began .mutation))
  rw [dispatch]
  rcases hr : (t.log (.began .mutation)).settle stage params m with ⟨e | g, t'⟩ <;> rw [hr] at h
  · exact .inl ⟨e, t', rfl, h, rfl⟩
  · exact .inr ⟨g, t', _, rfl, h, rfl, rfl⟩

/-- A fire fails to evaluate its arguments or its request, or makes one bullet. -/
theorem FireStep.dispatch_cases [BulletFactory φ α] (f : FireStep) :
    (∃ e t' f', (t.log (.began .fire)).Draws t' ∧ (f' = f ∨ ∃ scope, f' = { f with scope }) ∧
      f.dispatch stage params t = ⟨f', t', some (.evaluation e)⟩) ∨
    ∃ scope isNew t₁ r t₂,
      (t.log (.began .fire)).resolve stage params f.scope = (.ok (scope, isNew), t₁) ∧
      t₁.request stage (scope.params params) { f with scope } = (.ok r, t₂) ∧
      (t.log (.began .fire)).Draws t₂ ∧
      f.dispatch stage params t
        = ⟨{ f with scope, fired := true }, (t₂.make stage f.definition r).leave .fire false none,
            none⟩ := by
  have h := Turn.draws_resolve stage params f.scope (t.log (.began .fire))
  rw [dispatch]
  rcases hr : (t.log (.began .fire)).resolve stage params f.scope with ⟨e | ⟨scope, isNew⟩, t₁⟩ <;>
    rw [hr] at h
  · exact .inl ⟨e, t₁, f, h, .inl rfl, rfl⟩
  · have h' := Turn.draws_request stage (scope.params params) { f with scope } t₁
    simp only
    rcases hr' : t₁.request stage (scope.params params) { f with scope } with ⟨e | r, t₂⟩ <;>
      rw [hr'] at h'
    · exact .inl ⟨e, t₂, _, h.trans h', .inr ⟨scope, rfl⟩, rfl⟩
    · exact .inr ⟨scope, isNew, t₁, r, t₂, rfl, hr', h.trans h', rfl⟩

theorem WaitStep.budget_dispatch (w : WaitStep) :
    (w.dispatch stage params t).turn.budget = t.budget := by
  rcases w.dispatch_cases stage params t with ⟨_, _, -, h, he⟩ | ⟨_, _, _, -, h, -, he⟩ <;>
    rw [he] <;> exact h.budget

theorem MutationStep.budget_dispatch (m : MutationStep) :
    (m.dispatch stage params t).turn.budget = t.budget := by
  rcases m.dispatch_cases stage params t with ⟨_, _, -, h, he⟩ | ⟨_, _, _, -, h, -, he⟩ <;>
    rw [he] <;> exact h.budget

theorem FireStep.budget_dispatch [BulletFactory φ α] (f : FireStep) :
    (f.dispatch stage params t).turn.budget = t.budget := by
  rcases f.dispatch_cases stage params t with ⟨_, _, _, h, -, he⟩ | ⟨_, _, _, _, _, -, -, h, he⟩ <;>
    rw [he] <;> exact h.budget

end Leaves

/-! ## Tame ways of advancing -/

/-- A way of advancing that keeps the height of a sequence and gives no iterations back. -/
def Advance.Tame (advance : Advance φ ρ α) : Prop :=
  ∀ outer s t, (advance outer s t).step.height = s.height ∧
    (advance outer s t).turn.budget ≤ t.budget

namespace LoopStep

@[simp] theorem height_settle (l : LoopStep Step) : l.settle.height = l.height := by
  unfold settle
  split <;> simp [height_eq]

theorem iterate_tame {advance : Advance φ ρ α} (h : advance.Tame) (params : Params) (n : Nat)
    (l : LoopStep Step) (t : Turn φ ρ α) :
    (iterate advance params n l t).step.height = l.height ∧
      (iterate advance params n l t).turn.budget ≤ t.budget := by
  induction n generalizing l t with
  | zero => rw [iterate]; split <;> simp
  | succ n ih =>
    rw [iterate]
    split
    · simp
    · split
      · simp
      · obtain ⟨hh, hb⟩ := h params l.body t.spend
        simp only [Turn.budget_spend] at hb
        have hl : ({ l with body := (advance params l.body t.spend).step } : LoopStep Step).height
            = l.height := by simp only [height_eq, hh]
        simp only
        split
        · exact ⟨hl, by simp only; omega⟩
        · split
          · exact ⟨by simpa using hl, by simp only; omega⟩
          · obtain ⟨h1, h2⟩ := ih
              ({ l with body := (advance params l.body t.spend).step } : LoopStep Step).settle
              (advance params l.body t.spend).turn
            exact ⟨h1.trans (by simpa using hl), by omega⟩

theorem drain_tame [RandomSource ρ] {advance : Advance φ ρ α} (h : advance.Tame) (stage : Stage)
    (params : Params) (l : LoopStep Step) (t : Turn φ ρ α) :
    (l.drain advance stage params t).step.height = l.height ∧
      (l.drain advance stage params t).turn.budget ≤ t.budget := by
  rw [drain]
  split
  · exact iterate_tame h params t.budget l t
  · have hb := (Turn.draws_eval stage params l.times t).budget
    rcases hr : t.eval stage params l.times with ⟨e | x, t1⟩ <;> rw [hr] at hb
    · exact ⟨rfl, Nat.le_of_eq hb⟩
    · simp only at hb ⊢
      obtain ⟨h1, h2⟩ :=
        iterate_tame h params t1.budget { l with target := some x.count.toNat } t1
      exact ⟨h1.trans (by simp [height_eq]), by omega⟩

end LoopStep

theorem Step.dispatch_tame [RandomSource ρ] [BulletFactory φ α] {advance : Advance φ ρ α}
    (h : advance.Tame) (stage : Stage) (params : Params) (s : Step) (t : Turn φ ρ α) :
    (s.dispatch advance stage params t).step.height = s.height ∧
      (s.dispatch advance stage params t).turn.budget ≤ t.budget := by
  cases s with
  | sequence s => exact h params s t
  | loop l => exact LoopStep.drain_tame h stage params l t
  | fire f => exact ⟨rfl, Nat.le_of_eq (FireStep.budget_dispatch stage params t f)⟩
  | mutation m => exact ⟨rfl, Nat.le_of_eq (MutationStep.budget_dispatch stage params t m)⟩
  | wait w => exact ⟨rfl, Nat.le_of_eq (WaitStep.budget_dispatch stage params t w)⟩
  | vanish _ => exact ⟨rfl, Nat.le_refl _⟩

namespace Sequence

theorem height_withScope (s : Sequence Step) (scope : Scope) (isNew : Bool) :
    (s.withScope scope isNew).height = s.height := by
  simp only [height_eq, withScope]
  split <;> simp

theorem turn_settle (s : Sequence Step) (o : Outcome Step (Turn φ ρ α)) :
    (s.settle o).turn = o.turn := by
  unfold settle
  split <;> rfl

theorem error_settle (s : Sequence Step) (o : Outcome Step (Turn φ ρ α)) :
    (s.settle o).error = o.error := by
  unfold settle
  split
  · next h => exact h.symm
  · next h => exact h.symm

theorem height_settle {s : Sequence Step} {o : Outcome Step (Turn φ ρ α)} {step : Step}
    (h : s.current? = some step) (ho : o.step.height = step.height) :
    (s.settle o).step.height = s.height := by
  have hs : Step.heightOfAll (s.children.set s.cursor o.step) = Step.heightOfAll s.children :=
    Step.heightOfAll_set h ho
  unfold settle
  split
  · simp only [height_eq, hs]
  · simp only
    split <;> simp only [height_eq, hs]

/-- Every turn keeps the height of its sequence and gives no iterations back. -/
theorem advanceWithin_tame [RandomSource ρ] [BulletFactory φ α] (stage : Stage) (levels : Nat) :
    Advance.Tame (advanceWithin (φ := φ) (ρ := ρ) (α := α) stage levels) := by
  induction levels with
  | zero => intro outer s t; exact ⟨rfl, Nat.le_refl _⟩
  | succ levels ih =>
    intro outer s t
    rw [advanceWithin]
    split
    · exact ⟨rfl, Nat.le_refl _⟩
    · have hb := (Turn.draws_resolve stage outer s.scope t).budget
      rcases hr : t.resolve stage outer s.scope with ⟨e | ⟨scope, isNew⟩, t1⟩ <;> rw [hr] at hb
      · exact ⟨rfl, Nat.le_of_eq hb⟩
      · simp only at hb ⊢
        have hs := height_withScope s scope isNew
        split
        · exact ⟨hs, Nat.le_of_eq hb⟩
        · rename_i step hc
          obtain ⟨h1, h2⟩ := Step.dispatch_tame ih stage (scope.params outer) step t1
          exact ⟨(height_settle hc h1).trans hs, by rw [turn_settle]; omega⟩

end Sequence

namespace Sequence

theorem advance_tame [RandomSource ρ] [BulletFactory φ α] (stage : Stage) :
    Advance.Tame fun outer s (t : Turn φ ρ α) => s.advance stage outer t :=
  fun outer s t => advanceWithin_tame stage s.height outer s t

/-- A sequence that is not done has a step under its cursor, whatever its scope. -/
theorem current?_withScope {s : Sequence Step} (hd : s.isDone = false) (scope : Scope)
    (isNew : Bool) : ∃ step, (s.withScope scope isNew).current? = some step := by
  have hlt : s.cursor < (s.withScope scope isNew).children.length := by
    have : s.cursor < s.children.length := by simpa [isDone] using hd
    unfold withScope
    cases isNew <;> simpa using this
  exact ⟨_, List.getElem?_eq_getElem hlt⟩

/-- The step under the cursor of a sequence is lower than the sequence. -/
theorem height_of_current? {s : Sequence Step} {scope : Scope} {isNew : Bool} {step : Step}
    (hc : (s.withScope scope isNew).current? = some step) : step.height < s.height := by
  rw [← height_withScope s scope isNew, height_eq]
  exact Nat.lt_succ_of_le (Step.height_le_heightOfAll (List.mem_of_getElem? hc))

end Sequence

/-! ## The bounds do not show -/

namespace LoopStep

/-- Rounds beyond the iterations that are left change nothing. -/
theorem iterate_rounds {advance : Advance φ ρ α} (h : advance.Tame) (params : Params) {n m : Nat}
    (l : LoopStep Step) (t : Turn φ ρ α) (hn : t.budget ≤ n) (hm : t.budget ≤ m) :
    iterate advance params n l t = iterate advance params m l t := by
  induction n generalizing m l t with
  | zero =>
    cases m with
    | zero => rfl
    | succ m => simp only [iterate, Nat.le_zero.1 hn, if_true]
  | succ n ih =>
    cases m with
    | zero => simp only [iterate, Nat.le_zero.1 hm, if_true]
    | succ m =>
      simp only [iterate]
      split
      · rfl
      · split
        · rfl
        · have hb := (h params l.body t.spend).2
          simp only [Turn.budget_spend] at hb
          split
          · rfl
          · split
            · rfl
            · exact ih _ _ (by omega) (by omega)

/-- Loops whose bodies are advanced alike go through the same rounds. -/
theorem iterate_congr {advance advance' : Advance φ ρ α} (ht : advance.Tame) {params : Params}
    {height : Nat}
    (h : ∀ outer s (t : Turn φ ρ α), s.height = height → advance outer s t = advance' outer s t)
    (n : Nat) (l : LoopStep Step) (t : Turn φ ρ α) (hl : l.height = height) :
    iterate advance params n l t = iterate advance' params n l t := by
  induction n generalizing l t with
  | zero => rfl
  | succ n ih =>
    have hbody : l.body.height = height := by rw [← height_eq]; exact hl
    simp only [iterate]
    rw [← h params l.body t.spend hbody]
    split
    · rfl
    · split
      · rfl
      · split
        · rfl
        · split
          · rfl
          · apply ih
            rw [height_settle, height_eq]
            exact ((ht params l.body t.spend).1).trans hbody

end LoopStep

variable [RandomSource ρ] [BulletFactory φ α]

/-- Steps whose sequences are advanced alike have the same turn. -/
theorem Step.dispatch_congr {advance advance' : Advance φ ρ α} (ht : advance.Tame) (stage : Stage)
    (params : Params) (s : Step) (t : Turn φ ρ α)
    (h : ∀ outer r (t : Turn φ ρ α), r.height = s.height → advance outer r t = advance' outer r t) :
    s.dispatch advance stage params t = s.dispatch advance' stage params t := by
  cases s with
  | sequence r => simp only [dispatch, h params r t rfl]
  | loop l =>
    simp only [dispatch, LoopStep.drain]
    split
    · rw [LoopStep.iterate_congr ht h _ _ _ rfl]
    · rcases t.eval stage params l.times with ⟨e | x, t1⟩
      · rfl
      · simp only
        rw [LoopStep.iterate_congr ht h]
        simp [LoopStep.height_eq, Step.height]
  | fire _ | mutation _ | wait _ | vanish _ => rfl

namespace Sequence

/-- Bounds that are not below the height of a sequence give the same turn. -/
theorem advanceWithin_congr (stage : Stage) {n m : Nat} (outer : Params) (s : Sequence Step)
    (t : Turn φ ρ α) (hn : s.height ≤ n) (hm : s.height ≤ m) :
    s.advanceWithin stage n outer t = s.advanceWithin stage m outer t := by
  induction n generalizing m outer s t with
  | zero => rw [height_eq] at hn; omega
  | succ n ih =>
    cases m with
    | zero => rw [height_eq] at hm; omega
    | succ m =>
      simp only [advanceWithin]
      split
      · rfl
      · rcases t.resolve stage outer s.scope with ⟨e | ⟨scope, isNew⟩, t1⟩
        · rfl
        · simp only
          split
          · rfl
          · rename_i step hc
            have hs := height_of_current? hc
            rw [Step.dispatch_congr (advanceWithin_tame stage n)]
            intro outer r t hr
            exact ih outer r t (by omega) (by omega)

/-- A bound that is not below the height of a sequence does not show. -/
theorem advanceWithin_eq_advance (stage : Stage) {n : Nat} (outer : Params) (s : Sequence Step)
    (t : Turn φ ρ α) (h : s.height ≤ n) :
    s.advanceWithin stage n outer t = s.advance stage outer t :=
  advanceWithin_congr stage outer s t h (Nat.le_refl _)

/-- A sequence that is done does nothing. -/
theorem advance_of_isDone (stage : Stage) (outer : Params) (s : Sequence Step) (t : Turn φ ρ α)
    (h : s.isDone = true) : s.advance stage outer t = ⟨s, t, none⟩ := by
  rw [advance, height_eq, advanceWithin, if_pos h]

/-- A sequence that fails to evaluate its scope gives no step a turn. -/
theorem advance_of_scope_error {stage : Stage} {outer : Params} {s : Sequence Step}
    {t t1 : Turn φ ρ α} {e : EvalError} (hd : s.isDone = false)
    (hr : t.resolve stage outer s.scope = (.error e, t1)) :
    s.advance stage outer t = ⟨s, t1, some (.evaluation e)⟩ := by
  rw [advance, height_eq, advanceWithin, if_neg (by simp [hd]), hr]

/-- A turn of a sequence evaluates its scope, then gives a turn to the step under its cursor, in
which nested sequences are advanced without a bound. -/
theorem advance_of_current {stage : Stage} {outer : Params} {s : Sequence Step}
    {t t1 : Turn φ ρ α} {scope : Scope} {isNew : Bool} {step : Step} (hd : s.isDone = false)
    (hr : t.resolve stage outer s.scope = (.ok (scope, isNew), t1))
    (hc : (s.withScope scope isNew).current? = some step) :
    s.advance stage outer t
      = (s.withScope scope isNew).settle
          (step.dispatch (fun outer r t => r.advance stage outer t) stage (scope.params outer)
            t1) := by
  rw [advance, height_eq, advanceWithin, if_neg (by simp [hd]), hr]
  simp only [hc]
  congr 1
  refine Step.dispatch_congr (advanceWithin_tame stage _) stage _ step t1 ?_
  intro outer r t h
  refine advanceWithin_eq_advance stage outer r t ?_
  have hs := height_of_current? hc
  have he := height_eq s
  omega

end Sequence

end Barrage
