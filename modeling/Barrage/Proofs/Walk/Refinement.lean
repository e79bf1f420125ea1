import Barrage.Host.Foundry
import Barrage.Proofs.Walk.Resume
import Barrage.Runner.Lemmas
import Barrage.Walk.Built

/-!
# Ticks refine the walk

* `Play.Follows`: what is left of a pattern that is being played leads to where its walk leads.
* `Play.Follows.tick`: every tick keeps this.
* `play_refines_walk`: the bullets that a pattern makes, however its time is cut and however few
  iterations a tick may start, are the first ones of its walk; they are all of them once it has ended
  by itself, and it ends as the walk does.
-/

namespace Barrage

variable {φ ρ α : Type} [RandomSource ρ] [BulletFactory φ α]

namespace Play

/-- What is left of a pattern that is being played leads to `total`. -/
inductive Follows (scene : Scene α) (total : Except Halt Unit × World φ ρ α)
    (p : Play φ ρ α) : Prop where
  | running (state : p.runner.state = .running) (builder : p.runner.builder = scene.builder)
    (steady : p.runner.root.only StepKind.isSteady = true) (failures : p.failures = [])
    (left : (p.runner.root.residue scene false p.runner.params).run
      ⟨p.factory, p.source, p.runner.last, p.spawned⟩ = total)
  | ended (made : p.spawned = total.2.made)
    (how : p.runner.state = .completed ∧ total.1 = .ok () ∨
      p.runner.state = .vanished ∧ total.1 = .error .vanished ∨
      p.runner.state = .aborted ∧ ∃ e, p.failures = [e] ∧ total.1 = .error (.failed e))

/-- A tick of a pattern that has ended changes nothing. -/
theorem tick_of_stopped {p : Play φ ρ α} (h : p.runner.isRunning = false) (target : Point)
    (rank : Scalar) (owner : Bullet α) (delta : Scalar) : p.tick target rank owner delta = p := by
  simp [tick, Runner.tick_of_stopped h, Runner.rest]

/-- A play after a turn of its pattern. -/
def give (r : Runner) (made : List (Spawn α)) (o : Outcome (Sequence Step) (Turn φ ρ α)) :
    Play φ ρ α :=
  let x := r.give o
  ⟨x.runner, x.factory, x.source, made ++ x.spawned, x.failure.toList⟩

/-- A turn leads to where what is left after it leads. -/
theorem Follows.give {scene : Scene α} {r : Runner}
    {o : Outcome (Sequence Step) (Turn φ ρ α)} (builder : r.builder = scene.builder)
    (steady : o.step.only StepKind.isSteady = true) (made : List (Spawn α)) :
    Follows scene (o.left made fun s => s.residue scene false r.params) (give r made o) := by
  obtain ⟨step, t, _ | e⟩ := o
  · rcases hv : t.removed with _ | _
    · rw [Outcome.left_of_stays _ hv]
      rcases hd : step.isDone with _ | _
      · refine .running ?_ ?_ ?_ rfl ?_
        · simp [Play.give, Runner.give, Runner.afterTurn, Runner.stateAfter, hv, hd]
        · exact builder
        · simpa [Play.give, Runner.give, Runner.afterTurn, hv] using steady
        · simp [Play.give, Runner.give, Runner.afterTurn, hv, Turn.world]
      · rw [Sequence.residue_of_isDone hd]
        refine .ended rfl (.inl ⟨?_, rfl⟩)
        simp [Play.give, Runner.give, Runner.afterTurn, Runner.stateAfter, hv, hd]
    · rw [Outcome.left_of_removed _ hv]
      refine .ended rfl (.inr (.inl ⟨?_, rfl⟩))
      simp [Play.give, Runner.give, Runner.afterTurn, Runner.stateAfter, hv]
  · exact .ended rfl (.inr (.inr ⟨rfl, e, rfl, rfl⟩))

/-- Every tick keeps what a play leads to. -/
theorem Follows.tick {scene : Scene α} {total : Except Halt Unit × World φ ρ α} {p : Play φ ρ α}
    (h : Follows scene total p) (delta : Scalar) :
    Follows scene total (p.tick scene.target scene.rank scene.owner delta) := by
  rcases h with ⟨state, builder, steady, failures, left⟩ | ⟨made, how⟩
  · have hrun : p.runner.isRunning = true := by simp [Runner.isRunning, state]
    rcases hd : p.runner.root.isDone with _ | _
    · -- The pattern has a turn.
      let stage : Stage := ⟨p.runner.builder, ⟨delta, scene.target, scene.rank⟩⟩
      let t : Turn φ ρ α := p.runner.turn scene.owner p.factory p.source
      have hscene : stage.scene t.owner = scene := by
        show Scene.mk p.runner.builder scene.target scene.rank scene.owner = scene
        rw [builder]
      have hworld : t.world p.spawned = ⟨p.factory, p.source, p.runner.last, p.spawned⟩ := by
        show World.mk p.factory p.source p.runner.last (p.spawned ++ []) = _
        rw [List.append_nil]
      have hres := (Sequence.residue_advance stage p.runner.params p.runner.root steady
        (t := t) rfl p.spawned).2
      have hblank := p.runner.root.blank_advance stage p.runner.params t
      rw [hscene, hworld, left] at hres
      rw [Play.tick, Runner.tick_of_turn hrun hd, hres, failures]
      exact Follows.give (r := p.runner.bindTo scene.owner.id) builder
        ((Sequence.only_congr hblank).trans steady) p.spawned
    · -- All steps are done, so nothing is left.
      rw [Sequence.residue_of_isDone hd] at left
      refine .ended ?_ (.inl ⟨?_, ?_⟩)
      · rw [← left, Play.tick, Runner.tick_of_isDone hrun hd]
        exact List.append_nil _
      · rw [Play.tick, Runner.tick_of_isDone hrun hd]
        rfl
      · rw [← left]
        rfl
  · have hstop : p.runner.isRunning = false := by
      rcases how with ⟨hs, -⟩ | ⟨hs, -⟩ | ⟨hs, -⟩ <;> simp [Runner.isRunning, hs]
    rw [tick_of_stopped hstop]
    exact .ended made how

/-- A play leads to the same place at all times. -/
theorem Follows.play {scene : Scene α} {total : Except Halt Unit × World φ ρ α} {p : Play φ ρ α}
    (h : Follows scene total p) (deltas : List Scalar) :
    Follows scene total (deltas.foldl (Play.tick scene.target scene.rank scene.owner) p) := by
  induction deltas generalizing p with
  | nil => exact h
  | cons delta deltas ih => exact ih (h.tick delta)

/-- What was made so far is a beginning of what will be made. -/
theorem Follows.prefix_made {scene : Scene α} {total : Except Halt Unit × World φ ρ α}
    {p : Play φ ρ α} (h : Follows scene total p) : p.spawned <+: total.2.made := by
  rcases h with ⟨-, -, -, -, left⟩ | ⟨made, -⟩
  · rw [← left]
    have hgrows : (p.runner.root.residue scene false p.runner.params : Walk φ ρ α Unit).Grows :=
      Step.grows_residue (.sequence p.runner.root) false p.runner.params
    exact hgrows ⟨p.factory, p.source, p.runner.last, p.spawned⟩
  · exact made ▸ List.prefix_refl p.spawned

end Play

/-- The bullets that a pattern makes, however its time is cut and however few iterations a tick may
start, are the first ones of its walk. Once it has ended by itself they are all of them, and it has
ended as the walk does. -/
theorem play_refines_walk {b : Builder} {a : Action Node} {params : Params} {r : Runner}
    (hr : Runner.ofAction b a params = .ok r) (hb : b.document.only StepKind.isSteady = true)
    (ha : a.only StepKind.isSteady = true) (target : Point) (rank : Scalar) (owner : Bullet α)
    (factory : φ) (source : ρ) (deltas : List Scalar) :
    let walk := ((⟨b, target, rank, owner⟩ : Scene α).walk params a).run
      (⟨factory, source, .nothing, []⟩ : World φ ρ α)
    let play := r.play target rank owner factory source deltas
    play.spawned <+: walk.2.made ∧
      (play.runner.state = .completed → play.spawned = walk.2.made ∧ walk.1 = .ok ()) ∧
      (play.runner.state = .vanished → play.spawned = walk.2.made ∧ walk.1 = .error .vanished) ∧
      (play.runner.state = .aborted → play.spawned = walk.2.made ∧
        ∃ e, play.failures = [e] ∧ walk.1 = .error (.failed e)) := by
  intro walk play
  obtain ⟨s, hs, rfl⟩ := Except.map_ok hr
  -- A built sequence is blank, so what is left of it is all of its walk.
  let scene : Scene α := ⟨b, target, rank, owner⟩
  have hres : (s.residue scene false params : Walk φ ρ α Unit) = scene.walk params a := by
    rw [Sequence.residue_of_blank (Builder.blank_action hs), Builder.walk_action rfl hs]
  have hstart : Play.Follows scene walk ⟨.ofRoot b params s, factory, source, [], []⟩ := by
    refine .running rfl rfl (Builder.only_action hb ha hs) rfl ?_
    show (s.residue scene false params).run _ = walk
    rw [hres]
    rfl
  have hplay : Play.Follows scene walk play := hstart.play deltas
  refine ⟨hplay.prefix_made, ?_⟩
  rcases hplay with ⟨state, -, -, -, -⟩ | ⟨made, how⟩
  · simp [state]
  · rcases how with ⟨hs, hw⟩ | ⟨hs, hw⟩ | ⟨hs, hw⟩ <;> simp [hs, hw, made]

/-- A builder over a document with an action that fires and waits as long as its caller says. Patterns
may start one iteration in a tick. -/
def volleyBuilder : Builder where
  document := ⟨[("volley", ⟨some "volley", [.fire ⟨none, none, none, .inline ⟨none, none, none, []⟩⟩,
    .wait (.param 1)]⟩)], [], []⟩
  config := ⟨1, 64, 1⟩

/-- Two volleys with a pause of random length each, and the end of the owner. -/
def twoVolleys : Action Node :=
  ⟨none, [.loop (.number 2) (.reference ⟨"volley", [.rand]⟩), .vanish]⟩

set_option maxRecDepth 10000 in
/-- Two volleys take five ticks of which each may start one iteration. -/
theorem play_refines_walk_two_volleys :
    ∃ r : Runner, Runner.ofAction volleyBuilder twoVolleys [] = .ok r ∧
      let walk := ((⟨volleyBuilder, ⟨0, -100⟩, 0, LabelledBullet.first⟩ : Scene _).walk []
        twoVolleys).run
          (⟨.plain, ⟨[5, 7], 0⟩, .nothing, []⟩ : World Foundry Tape (Option String))
      let play := r.play ⟨0, -100⟩ 0 LabelledBullet.first Foundry.plain (⟨[5, 7], 0⟩ : Tape)
        [1, 1, 1, 1, 1]
      play.spawned.length = 2 ∧ play.spawned = walk.2.made ∧ walk.1 = .error .vanished := by
  obtain ⟨r, hr⟩ : ∃ r, Runner.ofAction volleyBuilder twoVolleys [] = .ok r := ⟨_, rfl⟩
  have hend : (r.play ⟨0, -100⟩ 0 LabelledBullet.first Foundry.plain (⟨[5, 7], 0⟩ : Tape)
      [1, 1, 1, 1, 1]).runner.state = .vanished ∧
    (r.play ⟨0, -100⟩ 0 LabelledBullet.first Foundry.plain (⟨[5, 7], 0⟩ : Tape)
      [1, 1, 1, 1, 1]).spawned.length = 2 := by
    cases hr
    decide
  have hplay := play_refines_walk hr (by decide) (by decide) ⟨0, -100⟩ 0 LabelledBullet.first
    Foundry.plain (⟨[5, 7], 0⟩ : Tape) [1, 1, 1, 1, 1]
  exact ⟨r, hr, hend.2, hplay.2.2.1 hend.1⟩

end Barrage
