import Barrage.Host.Foundry
import Barrage.Proofs.Yield.Pace
import Barrage.Runner.Reach

/-!
# When a pattern goes on

* `Tick.Progress`: a leaf had its turn in a tick, or a cursor or counter has increased.
* `Runner.Ticks`: some ticks without an error lead from one runner to another.
* `Runner.progress_iff`: a tick that leaves a pattern running makes progress exactly if no more loops
  are entered along the cursors after it than a tick may start iterations.
* `Runner.stuck_ticks`: if there are more, the pattern never goes on.
* `Runner.untimed_ticks`: a pattern of untimed steps ends after so many ticks, or is stuck.
* `tick_progress_iff`: this is all that there is to say of the patterns that can be reached.
* `tick_progress_nested_loops`: two loops, one in the other, are stuck if a tick may start one
  iteration only.
-/

namespace Barrage

variable {φ ρ α : Type}

/-- In a tick of a runner a leaf had its turn, or a cursor or counter has increased. -/
def Tick.Progress (r : Runner) (x : Tick φ ρ α) : Prop :=
  (∃ kind, .began kind ∈ x.journal.toList) ∨
    (Step.sequence r.root).Gained (.sequence x.runner.root)

namespace Runner

/-- Some ticks without an error lead from one runner to another. The hosts of the ticks may be of
different types. -/
inductive Ticks (r : Runner) : Nat → Runner → Prop where
  | zero : Ticks r 0 r
  | succ {φ ρ α : Type} [RandomSource ρ] [BulletFactory φ α] {n r'} (before : Ticks r n r')
    (frame : Frame) (owner : Bullet α) (factory : φ) (source : ρ)
    (ok : (r'.tick frame owner factory source).failure = none) :
    Ticks r (n + 1) (r'.tick frame owner factory source).runner

/-- More loops are entered along the cursors of a running pattern than a tick may start iterations. -/
def Stuck (r : Runner) : Prop := r.isRunning = true ∧ r.budget < r.root.entered

variable [RandomSource ρ] [BulletFactory φ α] {r : Runner} {frame : Frame} {owner : Bullet α}
variable {factory : φ} {source : ρ}

omit [RandomSource ρ] [BulletFactory φ α] in
/-- A pattern goes on if its owner is still there and it has steps to do. -/
theorem afterTurn_of_undone {o : Outcome (Sequence Step) (Turn φ ρ α)} (he : o.error = none)
    (hr : o.turn.removed = false) (hd : o.step.isDone = false) :
    r.afterTurn o = { r with root := o.step, last := o.turn.last, state := .running } := by
  simp [afterTurn, he, hr, stateAfter, hd]

/-- No tick changes how many iterations it may start. -/
theorem budget_tick : (r.tick frame owner factory source).runner.budget = r.budget := by
  rw [budget, (r.tick_keeps frame owner factory source).1, budget]

/-- What a tick without an error comes to if the pattern has steps to do. -/
theorem tick_paces (hv : r.root.Valid) (hr : r.isRunning = true) (hd : r.root.isDone = false)
    (ok : (r.tick frame owner factory source).failure = none) :
    ∃ o : Outcome (Sequence Step) (Turn φ ρ α), o.error = none ∧
      r.tick frame owner factory source = (r.bindTo owner.id).give o ∧
      o.step.blank = r.root.blank ∧
      (r.turn owner factory source).Paces (.sequence r.root) (o.map .sequence)
        (r.tick frame owner factory source).journal.toList := by
  have hx : r.tick frame owner factory source
      = (r.bindTo owner.id).give
          (r.root.advance ⟨r.builder, frame⟩ r.params (r.turn owner factory source)) :=
    tick_of_turn hr hd
  rw [hx] at ok
  obtain ⟨es, hp⟩ := Sequence.advance_paces ⟨r.builder, frame⟩ r.params hv
    (r.turn owner factory source) ok
  have hlogs : (r.turn owner factory source).Logs
      (r.root.advance ⟨r.builder, frame⟩ r.params (r.turn owner factory source)).turn
      (r.tick frame owner factory source).journal.toList := by
    rw [hx]
    rfl
  obtain rfl := hlogs.unique hp.logs
  exact ⟨_, ok, hx, Sequence.blank_advance .., hp⟩

/-- A tick that leaves a pattern running did not fail, and the pattern had steps to do. -/
theorem undone_of_running (hr : r.isRunning = true)
    (hx : (r.tick frame owner factory source).runner.isRunning = true) :
    r.root.isDone = false ∧ (r.tick frame owner factory source).failure = none := by
  rcases r.tick_cases frame owner factory source with ⟨h, -⟩ | ⟨-, -, h⟩ | ⟨-, hd, h⟩
  · rw [hr] at h
    cases h
  · rw [h] at hx
    cases hx
  · rw [h] at hx ⊢
    exact ⟨hd, (afterTurn_of_running hx).1⟩

/-- A tick that leaves a pattern running makes progress exactly if the pattern is not stuck then. -/
theorem progress_iff (hv : r.root.Valid) (hr : r.isRunning = true)
    (hx : (r.tick frame owner factory source).runner.isRunning = true) :
    (r.tick frame owner factory source).Progress r ↔
      ¬ (r.tick frame owner factory source).runner.Stuck := by
  obtain ⟨hd, ok⟩ := undone_of_running hr hx
  obtain ⟨o, -, htick, -, hp⟩ := tick_paces hv hr hd ok
  have hroot : (r.tick frame owner factory source).runner.root = o.step ∧ o.step.isDone = false := by
    rw [htick] at hx ⊢
    obtain ⟨-, -, hd', h⟩ := afterTurn_of_running hx
    exact ⟨congrArg Runner.root h, hd'⟩
  rw [Stuck, budget_tick, hroot.1, Tick.Progress, hroot.1]
  -- A turn that moved leaves few enough loops entered, one that stalled leaves too many.
  rcases hp.pace with ⟨hdone, -⟩ | ⟨hmoved, -⟩ | ⟨-, hstalled⟩
  · have hdone : o.step.isDone = true := hdone
    rw [hroot.2] at hdone
    cases hdone
  · refine iff_of_true (hmoved.acted.imp_right Ahead.exists_lt) ?_
    rintro ⟨-, hlt⟩
    have hwithin : o.step.entered ≤ r.budget := hmoved.within
    omega
  · refine iff_of_false ?_ (not_not_intro ⟨hx, hstalled.beyond⟩)
    rintro (⟨kind, hmem⟩ | hgained)
    · exact hstalled.calm kind hmem
    · exact Step.not_gained_of_eq hstalled.same hgained

/-! ## Patterns that are stuck -/

/-- A tick without an error leaves a stuck pattern stuck, and nothing moves in it. -/
theorem Stuck.tick (hs : r.Stuck) (hv : r.root.Valid)
    (ok : (r.tick frame owner factory source).failure = none) :
    (r.tick frame owner factory source).runner.Stuck ∧
      (r.tick frame owner factory source).runner.root.counters = r.root.counters := by
  have hd : r.root.isDone = false := by
    by_cases hd : r.root.isDone = true
    · have := hs.2
      rw [Sequence.entered_of_isDone hd] at this
      omega
    · simpa using hd
  obtain ⟨o, he, htick, -, hp⟩ := tick_paces hv hs.1 hd ok
  -- More loops were entered than a tick may start iterations, so the turn can only stall.
  have hbefore (h : (Step.sequence r.root).isDone = false → r.root.entered ≤ r.budget) : False := by
    have hle := h hd
    have hlt := hs.2
    omega
  rcases hp.pace with ⟨-, -, hb⟩ | ⟨-, hb, -⟩ | ⟨-, hstalled⟩
  · exact (hbefore hb).elim
  · exact (hbefore hb).elim
  · have hafter := afterTurn_of_undone (r := r.bindTo owner.id) he (hp.removed (.inr hstalled.calm))
      hstalled.undone
    have hrunner : (r.tick frame owner factory source).runner
        = { r.bindTo owner.id with root := o.step, last := o.turn.last, state := .running } := by
      rw [htick]
      exact hafter
    rw [hrunner]
    exact ⟨⟨rfl, hstalled.beyond⟩, hstalled.same⟩

theorem Ticks.valid {r r' : Runner} {n : Nat} (h : r.Ticks n r') (hv : r.root.Valid) :
    r'.root.Valid := by
  induction h with
  | zero => exact hv
  | succ _ frame owner factory source _ ih => exact tick_valid ih frame owner factory source

/-- A stuck pattern stays stuck. -/
theorem Ticks.stuck {r r' : Runner} {n : Nat} (h : r.Ticks n r') (hv : r.root.Valid)
    (hs : r.Stuck) : r'.Stuck ∧ r'.root.counters = r.root.counters := by
  induction h with
  | zero => exact ⟨hs, rfl⟩
  | succ before frame owner factory source ok ih =>
    obtain ⟨hs', hc'⟩ := ih.1.tick (before.valid hv) ok
    exact ⟨hs', hc'.trans ih.2⟩

/-- A pattern whose loops do not nest deeper than a tick may start iterations is never stuck. -/
theorem not_stuck (h : r.root.nesting ≤ r.budget) : ¬ r.Stuck := by
  rintro ⟨-, hlt⟩
  have := r.root.entered_le_nesting
  omega

theorem nesting_tick : (r.tick frame owner factory source).runner.root.nesting = r.root.nesting :=
  Sequence.nesting_congr (r.tick_keeps frame owner factory source).2.2

/-! ## Patterns of untimed steps -/

/-- A pattern that has only untimed steps, each of which is done at once, ended or goes on. -/
structure Lasts (r r' : Runner) (n : Nat) : Prop where
  isRunning : r'.isRunning = true
  only : r'.root.only StepKind.isUntimed = true
  work : r'.root.work + n ≤ r.root.work

/-- A tick of a pattern of untimed steps ends it, or leaves it stuck, or leaves less to do. -/
theorem untimed_tick (hv : r.root.Valid) (hr : r.isRunning = true)
    (ho : r.root.only StepKind.isUntimed = true)
    (ok : (r.tick frame owner factory source).failure = none) :
    (r.tick frame owner factory source).runner.state = .completed ∨
      (r.tick frame owner factory source).runner.Stuck ∨
      r.Lasts (r.tick frame owner factory source).runner 1 := by
  by_cases hd : r.root.isDone = true
  · rw [tick_of_isDone hr hd]
    exact .inl rfl
  · obtain ⟨o, he, htick, hblank, hp⟩ := tick_paces hv hr (by simpa using hd) ok
    have hremoved : o.turn.removed = false := hp.removed (.inl ho)
    rw [htick]
    by_cases hdone : o.step.isDone = true
    · left
      show ((r.bindTo owner.id).afterTurn o).state = _
      simp [afterTurn, he, hremoved, stateAfter, hdone]
    · right
      show ((r.bindTo owner.id).afterTurn o).Stuck ∨ r.Lasts ((r.bindTo owner.id).afterTurn o) 1
      rw [afterTurn_of_undone he hremoved (by simpa using hdone)]
      rcases hp.pace with ⟨h, -⟩ | ⟨hmoved, -⟩ | ⟨-, hstalled⟩
      · exact absurd h hdone
      · exact .inr ⟨rfl, (Sequence.only_congr hblank).trans ho, hmoved.less ho⟩
      · exact .inl ⟨rfl, hstalled.beyond⟩

/-- After some ticks a pattern of untimed steps has ended, or is stuck, or has less to do by as much. -/
theorem Ticks.untimed {r r' : Runner} {n : Nat} (h : r.Ticks n r') (hv : r.root.Valid)
    (hr : r.isRunning = true) (ho : r.root.only StepKind.isUntimed = true) :
    r'.state = .completed ∨ r'.Stuck ∨ r.Lasts r' n := by
  induction h with
  | zero => exact .inr (.inr ⟨hr, ho, Nat.le_refl _⟩)
  | succ before frame owner factory source ok ih =>
    have hv' := before.valid hv
    rcases ih with hdone | hstuck | hlasts
    · rw [tick_of_stopped (by simp [isRunning, hdone])]
      exact .inl hdone
    · exact .inr (.inl (hstuck.tick hv' ok).1)
    · refine (untimed_tick hv' hlasts.isRunning hlasts.only ok).imp_right (.imp_right fun hnext => ?_)
      have := hlasts.work
      have := hnext.work
      exact ⟨hnext.isRunning, hnext.only, by omega⟩

theorem Ticks.nesting {r r' : Runner} {n : Nat} (h : r.Ticks n r') :
    r'.root.nesting = r.root.nesting ∧ r'.budget = r.budget := by
  induction h with
  | zero => exact ⟨rfl, rfl⟩
  | succ _ _ _ _ _ _ ih => exact ⟨nesting_tick.trans ih.1, budget_tick.trans ih.2⟩

end Runner

/-! ## The patterns that can be reached -/

variable [RandomSource ρ] [BulletFactory φ α]

/-- A tick that leaves a pattern running makes progress exactly if no more loops are entered along
the cursors after it than a tick may start iterations; loops that do not nest deeper never are. If
there are more, nothing ever moves in the pattern again. A pattern of untimed steps ends after
finitely many ticks, unless that happens. -/
theorem tick_progress_iff {r₀ r : Runner} (h₀ : Runner.New r₀) (h : r₀.Reach r)
    (hr : r.isRunning = true) :
    (∀ (frame : Frame) (owner : Bullet α) (factory : φ) (source : ρ),
      let x := r.tick frame owner factory source
      x.runner.isRunning = true →
        (x.Progress r ↔ x.runner.root.entered ≤ r.budget) ∧
        (r.root.nesting ≤ r.budget → x.Progress r)) ∧
    (r.budget < r.root.entered → ∀ n r', r.Ticks n r' →
      r'.isRunning = true ∧ r'.budget < r'.root.entered ∧ r'.root.counters = r.root.counters ∧
        ∀ (frame : Frame) (owner : Bullet α) (factory : φ) (source : ρ),
          let x := r'.tick frame owner factory source
          x.failure = none → ¬ x.Progress r') ∧
    (r.root.only StepKind.isUntimed = true → ∀ n r', r.Ticks n r' → r.root.work < n →
      (r'.state = .completed ∨ r'.isRunning = true ∧ r'.budget < r'.root.entered) ∧
        (r.root.nesting ≤ r.budget → r'.state = .completed)) := by
  have hv := h.valid h₀
  refine ⟨?_, ?_, ?_⟩
  · intro frame owner factory source x hx
    have hiff := Runner.progress_iff hv hr hx
    refine ⟨hiff.trans ?_, fun hle => hiff.2 (Runner.not_stuck ?_)⟩
    · rw [Runner.Stuck, Runner.budget_tick]
      constructor
      · intro hs
        by_cases hlt : r.budget < x.runner.root.entered
        · exact absurd ⟨hx, hlt⟩ hs
        · exact Nat.not_lt.1 hlt
      · rintro hle ⟨-, hlt⟩
        exact absurd hle (Nat.not_le.2 hlt)
    · rw [Runner.nesting_tick, Runner.budget_tick]
      exact hle
  · intro hs n r' ht
    obtain ⟨hstuck, hc⟩ := ht.stuck hv ⟨hr, hs⟩
    refine ⟨hstuck.1, hstuck.2, hc, ?_⟩
    intro frame owner factory source x ok hprogress
    obtain ⟨hnext, -⟩ := hstuck.tick (ht.valid hv) ok
    have hiff := Runner.progress_iff (ht.valid hv) hstuck.1 hnext.1
    exact hiff.1 hprogress hnext
  · intro ho n r' ht hn
    -- Each tick leaves less to do, and there were more ticks than there was to do.
    have hend : r'.state = .completed ∨ r'.Stuck := by
      refine (ht.untimed hv hr ho).imp_right fun h => h.resolve_right fun hlasts => ?_
      have := hlasts.work
      omega
    refine ⟨hend, fun hle => hend.resolve_right (Runner.not_stuck ?_)⟩
    rw [ht.nesting.1, ht.nesting.2]
    exact hle

/-- Two loops, one in the other, and a bullet. -/
def nestedLoops : Action Node :=
  ⟨none, [.loop (.number 2) (.action ⟨none, [.loop (.number 2) (.action ⟨none,
    [.fire ⟨none, none, none, .inline ⟨none, none, none, []⟩⟩]⟩)]⟩)]⟩

set_option maxRecDepth 10000 in
/-- If a tick may start two iterations, two loops go on in every tick and come to their end. -/
theorem tick_progress_iff_nested_loops :
    ∃ r : Runner, Runner.ofAction (.bare ⟨2, 64, 1⟩) nestedLoops [] = .ok r ∧
      r.quietTick.runner.isRunning = true ∧ r.quietTick.Progress r ∧
      ∀ n r', r.Ticks n r' → r.root.work < n → r'.state = .completed := by
  obtain ⟨r, hr⟩ : ∃ r, Runner.ofAction (.bare ⟨2, 64, 1⟩) nestedLoops [] = .ok r := ⟨_, rfl⟩
  have hstart : r.isRunning = true ∧ r.quietTick.runner.isRunning = true ∧
      r.root.nesting ≤ r.budget ∧ r.root.only StepKind.isUntimed = true := by
    cases hr
    decide
  obtain ⟨hrun, hnext, hle, ho⟩ := hstart
  have h := tick_progress_iff (φ := Foundry) (ρ := Tape) (α := Option String) (.action hr) .refl hrun
  exact ⟨r, hr, hnext, (h.1 _ _ _ _ hnext).2 hle, fun n r' ht hn => (h.2.2 ho n r' ht hn).2 hle⟩

set_option maxRecDepth 10000 in
/-- If a tick may start one iteration only, two loops never go on. -/
theorem tick_progress_nested_loops :
    ¬ ∀ (r₀ r : Runner) (frame : Frame) (owner : LabelledBullet) (factory : Foundry)
        (source : Tape), r₀.New → r₀.Reach r → 1 ≤ r.builder.config.maxIterationsPerTick →
      r.isRunning = true → (r.tick frame owner factory source).failure = none →
      (r.tick frame owner factory source).runner.isRunning = true →
      (r.tick frame owner factory source).Progress r := by
  intro h
  obtain ⟨r, hr⟩ : ∃ r, Runner.ofAction (.bare ⟨1, 64, 1⟩) nestedLoops [] = .ok r := ⟨_, rfl⟩
  have hstart : 1 ≤ r.builder.config.maxIterationsPerTick ∧ r.isRunning = true ∧
      r.quietTick.failure = none ∧ r.quietTick.runner.isRunning = true ∧
      r.quietTick.runner.root.counters = r.root.counters ∧
      r.quietTick.journal.toList
        = [.evaluated (.number 2) [], .iterated, .evaluated (.number 2) [], .exhausted] := by
    cases hr
    decide
  obtain ⟨hcap, hrun, ok, hnext, hsame, hjournal⟩ := hstart
  rcases h r r _ _ _ _ (.action hr) .refl hcap hrun ok hnext with ⟨kind, hmem⟩ | hgained
  · change _ ∈ r.quietTick.journal.toList at hmem
    rw [hjournal] at hmem
    simp at hmem
  · exact absurd hgained (Step.not_gained_of_eq hsame)

end Barrage
