import Barrage.Host.Foundry
import Barrage.Runner.Lemmas
import Barrage.Turn.Leaves

/-!
# Nothing runs after a yield

A vanish is the last leaf that has a turn, and so is a timed step that goes on. What surrounds it adds
nothing to what it left, however deep it is nested.

* `Turn.Closes`: how a turn comes out that is made of some turns of leaves; `Step.Gives.closes` says that
  every turn comes out like that.
* `Step.Gives.removed`: a turn removes the owner exactly if a vanish has its turn in it.
* `Runner.Gives`: the turns of leaves in a tick.
* `nothing_after_yield`: after a leaf that stops it, nothing happens in a turn or in a tick.
-/

namespace Barrage

variable {φ ρ α : Type} {σ : Type} {ls ls' : List (LeafTurn φ ρ α)} {t t' : Turn φ ρ α}

/-- How a turn comes out that is made of some turns of leaves: more steps can run, or the last leaf stopped
it and nothing happened since, or no iterations are left. -/
inductive Turn.Closes (ls : List (LeafTurn φ ρ α)) (o : Outcome σ (Turn φ ρ α)) : Prop where
  | runs (hy : o.turn.mustYield = false) (hls : ∀ l ∈ ls, ¬ l.Stops)
  | stops {before l} (hy : o.turn.mustYield = true) (he : o.error = none) (hls : ls = before ++ [l])
    (hl : l.Stops) (ht : o.turn = l.outcome.turn) (hbefore : ∀ l ∈ before, ¬ l.Stops)
  | exhausted (hy : o.turn.mustYield = true) (he : o.error = none) (hls : ∀ l ∈ ls, ¬ l.Stops)

namespace Turn

variable {o : Outcome σ (Turn φ ρ α)}

/-- What comes of the step does not matter. -/
theorem Closes.congr {σ' : Type} {o' : Outcome σ' (Turn φ ρ α)} (h : Closes ls o) (ht : o'.turn = o.turn)
    (he : o'.error = o.error) : Closes ls o' := by
  cases h with
  | runs hy hls => exact .runs (ht ▸ hy) hls
  | stops hy herror hls hl hturn hbefore =>
    exact .stops (ht ▸ hy) (he.trans herror) hls hl (ht.trans hturn) hbefore
  | exhausted hy herror hls => exact .exhausted (ht ▸ hy) (he.trans herror) hls

/-- Leaves that do not stop a turn may have theirs before. -/
theorem Closes.prepend (h : Closes ls o) (hls' : ∀ l ∈ ls', ¬ l.Stops) : Closes (ls' ++ ls) o := by
  have happend {ls : List (LeafTurn φ ρ α)} (hls : ∀ l ∈ ls, ¬ l.Stops) : ∀ l ∈ ls' ++ ls, ¬ l.Stops :=
    fun l hl => (List.mem_append.1 hl).elim (hls' l) (hls l)
  cases h with
  | runs hy hls => exact .runs hy (happend hls)
  | stops hy he hls hl ht hbefore =>
    exact .stops hy he (by rw [hls, List.append_assoc]) hl ht (happend hbefore)
  | exhausted hy he hls => exact .exhausted hy he (happend hls)

/-- After a leaf that stops a turn nothing happens. -/
theorem Closes.nothing_after (h : Closes ls o) {before after : List (LeafTurn φ ρ α)} {l : LeafTurn φ ρ α}
    (heq : ls = before ++ l :: after) (hl : l.Stops) :
    after = [] ∧ o.turn = l.outcome.turn ∧ o.error = none := by
  have hmem : l ∈ ls := by simp [heq]
  cases h with
  | runs _ hls => exact absurd hl (hls l hmem)
  | exhausted _ _ hls => exact absurd hl (hls l hmem)
  | @stops before' l' _ he hls _ ht hbefore =>
    by_cases hnil : after = []
    · subst hnil
      obtain ⟨-, hlast⟩ := List.append_inj' (hls.symm.trans heq) rfl
      obtain rfl := List.singleton_inj.1 hlast
      exact ⟨rfl, ht, he⟩
    · -- With leaves after it, it would be one of those before the last.
      have hlast : before' = before ++ l :: after.dropLast := by
        have := congrArg List.dropLast (hls.symm.trans heq)
        rw [List.dropLast_concat, List.dropLast_append_of_ne_nil (List.cons_ne_nil _ _),
          List.dropLast_cons_of_ne_nil hnil] at this
        exact this
      exact absurd hl (hbefore l (by simp [hlast]))

end Turn

variable [RandomSource ρ] [BulletFactory φ α] {stage : Stage} {params : Params} {step : Step}
variable {o : Outcome Step (Turn φ ρ α)}

/-- The turn of a leaf stops the whole turn or leaves it to go on. -/
theorem Step.leaf_closes (hl : step.kind.isLeaf = true)
    (ho : step.dispatch (Sequence.advance stage) stage params t = o) (ht : t.mustYield = false) :
    Turn.Closes [⟨step, params, t, o⟩] o := by
  rcases leaf_cases hl ho with ⟨hk, ⟨e, he⟩, h⟩ | ⟨he, clock, h⟩
  · refine .runs (h.mustYield.trans ht) (List.forall_mem_singleton.2 ?_)
    rintro (hv | ⟨hok, -⟩)
    · exact hk hv
    · rw [he] at hok
      cases hok
  · have hy : o.turn.mustYield = (step.kind == .vanish || !o.step.isDone) := by
      rw [h.mustYield, ht, Bool.false_or, Event.stops]
    rcases hs : (step.kind == .vanish || !o.step.isDone) with _ | _
    · obtain ⟨hk, hd⟩ : step.kind ≠ .vanish ∧ o.step.isDone = true := by simpa using hs
      refine .runs (hy.trans hs) (List.forall_mem_singleton.2 ?_)
      rintro (hv | ⟨-, hundone⟩)
      · exact hk hv
      · rw [hd] at hundone
        cases hundone
    · have hstops : step.kind = .vanish ∨ o.step.isDone = false := by simpa using hs
      exact .stops (hy.trans hs) he (List.nil_append _).symm (hstops.imp_right fun hd => ⟨he, hd⟩) rfl
        (List.forall_mem_nil _)

/-- Every turn comes out as its leaves say, if steps could run when it started. -/
theorem Step.Gives.closes (h : step.Gives stage params t ls o) (ht : t.mustYield = false) :
    Turn.Closes ls o := by
  induction h with
  | leaf hl ho => exact leaf_closes hl ho ht
  | done | ended => exact .runs ht (List.forall_mem_nil _)
  | scopeFails hr => exact .runs ((Turn.Draws.of_resolve hr).mustYield.trans ht) (List.forall_mem_nil _)
  | current hr _ _ ih =>
    exact (ih ((Turn.Draws.of_resolve hr).mustYield.trans ht)).congr (Sequence.turn_settle ..)
      (Sequence.error_settle ..)
  | countFails _ hr => exact .runs ((Turn.Draws.of_eval hr).mustYield.trans ht) (List.forall_mem_nil _)
  | entered _ hr _ ih => exact ih ((Turn.Draws.of_eval hr).mustYield.trans ht)
  | exhausted => exact .exhausted rfl rfl (List.forall_mem_nil _)
  | fails _ _ _ he ih => exact (ih ht).congr rfl he.symm
  | yields _ _ _ he _ ih => exact (ih ht).congr rfl he.symm
  | again _ _ _ _ hy _ ih ih' =>
    -- The rounds before left more steps to run, so none of their leaves stopped the turn.
    cases ih ht with
    | runs _ hls => exact (ih' hy).prepend hls
    | stops hy' | exhausted hy' => cases hy.symm.trans hy'

/-- A turn removes the owner exactly if a vanish has its turn in it. -/
theorem Step.Gives.removed (h : step.Gives stage params t ls o) :
    o.turn.removed = true ↔ t.removed = true ∨ ∃ l ∈ ls, l.leaf.kind = .vanish := by
  induction h with
  | leaf hl ho =>
    rcases leaf_cases hl ho with ⟨hk, -, h⟩ | ⟨-, clock, h⟩
    · simp [h.removed, hk]
    · simp [h.removed]
  | done | ended | exhausted => simp [Turn.exhaust, Turn.log]
  | scopeFails hr => simp [(Turn.Draws.of_resolve hr).removed]
  | current hr _ _ ih =>
    rw [(Turn.Draws.of_resolve hr).removed] at ih
    simpa [Outcome.map, Sequence.turn_settle] using ih
  | countFails _ hr => simp [(Turn.Draws.of_eval hr).removed]
  | entered _ hr _ ih => rwa [(Turn.Draws.of_eval hr).removed] at ih
  | fails _ _ _ _ ih | yields _ _ _ _ _ ih => exact ih
  | @again _ _ t _ _ _ _ o _ _ _ _ _ _ ih ih' =>
    have ih : o.turn.removed = true ↔ t.removed = true ∨ _ := ih
    rw [ih', ih, or_assoc]
    simp only [List.mem_append, or_and_right, exists_or]

/-- If steps could run when it started, a turn removes the owner exactly if a vanish has its turn in it. -/
theorem Step.Gives.removed_iff (h : step.Gives stage params t ls o) (ht : t.mustYield = false) :
    o.turn.removed = true ↔ ∃ l ∈ ls, l.leaf.kind = .vanish := by
  rw [h.removed, (Bool.or_eq_false_iff.1 ht).2]
  simp

/-- A turn that removes the owner has no error. -/
theorem Step.Gives.error_of_removed (h : step.Gives stage params t ls o) (ht : t.mustYield = false)
    (hr : o.turn.removed = true) : o.error = none := by
  obtain ⟨l, hmem, hk⟩ := (h.removed_iff ht).1 hr
  obtain ⟨before, after, heq⟩ := List.append_of_mem hmem
  exact ((h.closes ht).nothing_after heq (.inl hk)).2.2

/-! ## Ticks -/

namespace Runner

variable {r : Runner}

/-- The turns of leaves in a tick of a pattern, none if the pattern has no turn. -/
inductive Gives (r : Runner) (frame : Frame) (owner : Bullet α) (factory : φ) (source : ρ) :
    List (LeafTurn φ ρ α) → Prop where
  | rest (h : r.isRunning = false ∨ r.root.isDone = true) : Gives r frame owner factory source []
  | turn {leaves} (hr : r.isRunning = true) (hd : r.root.isDone = false)
    (h : (Step.sequence r.root).Gives ⟨r.builder, frame⟩ r.params (r.turn owner factory source) leaves
      ((r.root.advance ⟨r.builder, frame⟩ r.params (r.turn owner factory source)).map .sequence)) :
    Gives r frame owner factory source leaves

theorem exists_gives (r : Runner) (frame : Frame) (owner : Bullet α) (factory : φ) (source : ρ) :
    ∃ ls, r.Gives frame owner factory source ls := by
  rcases hr : r.isRunning with _ | _
  · exact ⟨[], .rest (.inl hr)⟩
  rcases hd : r.root.isDone with _ | _
  · obtain ⟨ls, h⟩ := r.root.advance_gives ⟨r.builder, frame⟩ r.params (r.turn owner factory source)
    exact ⟨ls, .turn hr hd h⟩
  · exact ⟨[], .rest (.inr hd)⟩

/-- A tick without turns of leaves gives nothing. -/
theorem tick_of_rest (frame : Frame) (owner : Bullet α) (factory : φ) (source : ρ)
    (h : r.isRunning = false ∨ r.root.isDone = true) :
    ∃ r' : Runner, r.tick frame owner factory source = r'.rest owner factory source := by
  rcases r.tick_cases frame owner factory source with ⟨-, htick⟩ | ⟨-, -, htick⟩ | ⟨hr, hd, -⟩
  · exact ⟨_, htick⟩
  · exact ⟨_, htick⟩
  · simp [hr, hd] at h

end Runner

/-- After a leaf that stops a turn, a vanish or a timed step that goes on, no other leaf has its turn, and
nothing changes since: no bullet is made, nothing is evaluated, the owner is not written, no iteration starts
and there is no error, however many sequences and loops are around the leaf. So the owner is removed exactly
if a vanish had its turn, and never with an error. The same holds of a tick. -/
theorem nothing_after_yield :
    (∀ (stage : Stage) (params : Params) (s : Sequence Step) (t : Turn φ ρ α), t.mustYield = false →
      let o := s.advance stage params t
      let Leaves ls := (Step.sequence s).Gives stage params t ls (o.map .sequence)
      (∃ ls, Leaves ls) ∧ ∀ ls, Leaves ls →
        t.Begins o.turn (ls.map fun l => l.leaf.kind) ∧
        (∀ before l after, ls = before ++ l :: after → l.Stops →
          after = [] ∧ o.turn = l.outcome.turn ∧ o.error = none) ∧
        (o.turn.removed = true ↔ ∃ l ∈ ls, l.leaf.kind = .vanish) ∧
        (o.turn.removed = true → o.error = none)) ∧
    ∀ (r : Runner) (frame : Frame) (owner : Bullet α) (factory : φ) (source : ρ),
      let x := r.tick frame owner factory source
      (∃ ls, r.Gives frame owner factory source ls) ∧ ∀ ls, r.Gives frame owner factory source ls →
        begun x.journal.toList = ls.map (fun l => l.leaf.kind) ∧
        (∀ before l after, ls = before ++ l :: after → l.Stops →
          after = [] ∧ ∃ root, x = (r.bindTo owner.id).give ⟨root, l.outcome.turn, none⟩) ∧
        (x.removed = true ↔ ∃ l ∈ ls, l.leaf.kind = .vanish) ∧
        (x.removed = true → x.failure = none) := by
  refine ⟨fun stage params s t ht => ⟨s.advance_gives stage params t, fun ls h => ⟨h.begins, ?_,
    h.removed_iff ht, h.error_of_removed ht⟩⟩, fun r frame owner factory source =>
    ⟨r.exists_gives frame owner factory source, fun ls h => ?_⟩⟩
  · intro before l after heq hl
    exact (h.closes ht).nothing_after heq hl
  cases h with
  | rest h =>
    obtain ⟨r', hr'⟩ := Runner.tick_of_rest frame owner factory source h
    simp [hr', Runner.rest, begun]
  | turn hr hd h =>
    have ht : (r.turn owner factory source).mustYield = false := rfl
    obtain ⟨es, hlogs, hes⟩ := h.begins
    rw [Runner.tick_of_turn hr hd]
    refine ⟨?_, fun before l after heq hl => ?_, ?_, fun hx => ?_⟩
    · exact hlogs ▸ hes
    · obtain ⟨hafter, hturn, herror⟩ := (h.closes ht).nothing_after heq hl
      exact ⟨hafter, _, congrArg ((r.bindTo owner.id).give) (congr (congrArg (Outcome.mk _) hturn) herror)⟩
    · rw [← h.removed_iff ht]
      exact Bool.and_eq_true_iff.trans (and_iff_right_of_imp fun hx =>
        Option.isNone_iff_eq_none.2 (h.error_of_removed ht hx))
    · exact Option.isNone_iff_eq_none.1 (Bool.and_eq_true_iff.1 hx).1

/-- A vanish after a shot, in two loops. -/
def vanishInLoops : Action Node :=
  ⟨none, [.loop (.number 5) (.action ⟨none, [.loop (.number 2) (.action ⟨none,
    [.fire ⟨none, none, none, .inline ⟨none, none, none, []⟩⟩, .vanish]⟩)]⟩)]⟩

set_option maxRecDepth 10000 in
/-- A vanish ends both loops around it in the first round, in a turn as in a tick. -/
theorem nothing_after_yield_in_loops :
    ∃ r : Runner, Runner.ofAction (.bare ⟨100, 64, 1⟩) vanishInLoops [] = .ok r ∧
      let frame : Frame := ⟨1, ⟨0, -100⟩, 0⟩
      let t := r.turn LabelledBullet.first Foundry.plain (⟨[], 0⟩ : Tape)
      let o := r.root.advance ⟨r.builder, frame⟩ r.params t
      o.turn.removed = true ∧ o.error = none ∧ r.quietTick.spawned.length = 1 ∧
      ∃ before l, r.Gives frame t.owner t.factory t.source (before ++ [l]) ∧ l.leaf.kind = .vanish ∧
        ∃ root, r.quietTick = (r.bindTo t.owner.id).give ⟨root, l.outcome.turn, none⟩ := by
  obtain ⟨r, hr⟩ : ∃ r, Runner.ofAction (.bare ⟨100, 64, 1⟩) vanishInLoops [] = .ok r := ⟨_, rfl⟩
  refine ⟨r, hr, ?_⟩
  intro frame t o
  have hrun : o.turn.removed = true ∧ r.quietTick.removed = true ∧ r.quietTick.spawned.length = 1 := by
    cases hr
    decide
  obtain ⟨⟨ls, hls⟩, hturn⟩ := nothing_after_yield.1 ⟨r.builder, frame⟩ r.params r.root t rfl
  obtain ⟨-, -, -, hok⟩ := hturn ls hls
  obtain ⟨⟨ls, hls⟩, htick⟩ := nothing_after_yield.2 r frame t.owner t.factory t.source
  obtain ⟨-, hstop, hremoved, -⟩ := htick ls hls
  obtain ⟨l, hmem, hk⟩ := hremoved.1 hrun.2.1
  obtain ⟨before, after, rfl⟩ := List.append_of_mem hmem
  obtain ⟨rfl, hlast⟩ := hstop before l after rfl (.inl hk)
  exact ⟨hrun.1, hok hrun.1, hrun.2.2, before, l, hls, hk, hlast⟩

end Barrage
