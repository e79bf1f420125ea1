import Barrage.Step.Fires
import Barrage.Turn.Blank

/-!
# What turns fail with, and what they make

* `Sequence.advance_error`: a turn fails only because a formula cannot be evaluated.
* `Turn.Adds`: all bullets that a turn makes have a property. `Sequence.advance_adds`: they have it if
  those have it that are made from definitions of the fires in the sequence.
-/

namespace Barrage

variable {φ ρ α : Type}

/-! ## Errors -/

/-- Turns fail only because a formula cannot be evaluated. -/
def Contract.failsToEvaluate : Contract φ ρ α where
  sequence _ _ _ o := ∀ x, o.error = some x → x.isEvaluation = true
  step _ _ _ o := ∀ x, o.error = some x → x.isEvaluation = true
  rounds _ _ _ o := ∀ x, o.error = some x → x.isEvaluation = true

section Errors

variable [RandomSource ρ] [BulletFactory φ α]

theorem Contract.failsToEvaluate_kept (stage : Stage) :
    (failsToEvaluate (φ := φ) (ρ := ρ) (α := α)).Kept stage where
  done _ x hx := by cases hx
  scopeFails _ _ x hx := by
    cases hx
    rfl
  current {_ s _ scope isNew _ _ o} _ _ _ ho := by
    show ∀ x, ((s.withScope scope isNew).settle o).error = some x → _
    rw [Sequence.error_settle]
    exact ho
  nested ho := ho
  fire params f t x hx := by
    rcases f.dispatch_cases stage params t with ⟨_, _, _, -, -, h⟩ | ⟨_, _, _, _, _, -, -, -, h⟩ <;>
      rw [h] at hx <;> cases hx
    rfl
  mutation params m t x hx := by
    rcases m.dispatch_cases stage params t with ⟨_, _, -, -, h⟩ | ⟨_, _, _, -, -, -, h⟩ <;>
      rw [h] at hx <;> cases hx
    rfl
  wait params w t x hx := by
    rcases w.dispatch_cases stage params t with ⟨_, _, -, -, h⟩ | ⟨_, _, _, -, -, -, h⟩ <;>
      rw [h] at hx <;> cases hx
    rfl
  vanish _ _ _ x hx := by cases hx
  countFails _ _ x hx := by
    cases hx
    rfl
  entered _ _ ho := ho
  resumed _ ho := ho
  ended _ _ x hx := by cases hx
  exhausted _ _ _ x hx := by cases hx
  fails _ _ _ ho he x hx := ho x (he.trans hx)
  yields _ _ _ _ _ _ x hx := by cases hx
  again _ _ _ _ _ _ hr := hr

/-- A turn fails only because a formula cannot be evaluated. -/
theorem Sequence.advance_error (stage : Stage) (params : Params) (s : Sequence Step)
    (t : Turn φ ρ α) {x : StepError} (hx : (s.advance stage params t).error = some x) :
    x.isEvaluation = true :=
  (Contract.failsToEvaluate_kept stage).advance params s t x hx

end Errors

/-! ## Bullets that are made -/

namespace Turn

variable {P : Spawn α → Prop} {t t' t'' : Turn φ ρ α}

/-- All bullets that a turn makes have a property. -/
def Adds (P : Spawn α → Prop) (t t' : Turn φ ρ α) : Prop :=
  ∀ w ∈ t'.spawned.toList, w ∈ t.spawned.toList ∨ P w

theorem Adds.of_eq (h : t'.spawned = t.spawned) : t.Adds P t' := fun _ hw =>
  .inl (h ▸ hw)

theorem Adds.trans (h : t.Adds P t') (h' : t'.Adds P t'') : t.Adds P t'' := by
  intro w hw
  rcases h' w hw with hw | hw
  · exact h w hw
  · exact .inr hw

theorem adds_make [BulletFactory φ α] {stage : Stage} {definition : BulletDef Node} {r : Request}
    (h : ∀ bullet,
      P (.of definition r bullet (Runner.ofSpawn stage.builder definition r.params)))
    (t : Turn φ ρ α) : t.Adds P (t.make stage definition r) := by
  intro w hw
  change w ∈ (t.spawned.push _).toList at hw
  rw [Array.toList_push] at hw
  rcases List.mem_append.1 hw with hw | hw
  · exact .inl hw
  · obtain rfl := List.mem_singleton.1 hw
    exact .inr (h _)

end Turn

/-- Bullets that are made from definitions with a property have a property. -/
def Contract.adds (Q : BulletDef Node → Prop) (P : Spawn α → Prop) : Contract φ ρ α where
  sequence _ s t o := (Step.sequence s).Fires Q → t.Adds P o.turn
  step _ s t o := s.Fires Q → t.Adds P o.turn
  rounds _ l t o := (Step.sequence l.body).Fires Q → t.Adds P o.turn

variable [RandomSource ρ] [BulletFactory φ α] {stage : Stage} {Q : BulletDef Node → Prop}
  {P : Spawn α → Prop}
  (hP : ∀ definition r bullet, Q definition →
    P (.of definition r bullet (Runner.ofSpawn stage.builder definition r.params)))

include hP

theorem Contract.adds_kept :
    (keepsBlank.and (adds (φ := φ) (ρ := ρ) Q P)).Kept stage where
  done hd := ⟨(keepsBlank_kept stage).done hd, fun _ => .of_eq rfl⟩
  scopeFails hd hr :=
    ⟨(keepsBlank_kept stage).scopeFails hd hr, fun _ => .of_eq (Turn.Draws.of_resolve hr).spawned⟩
  current {_ s _ scope isNew _ _ o} hd hr hc ho := by
    refine ⟨(keepsBlank_kept stage).current hd hr hc ho.1, fun hs => ?_⟩
    have hblank := s.blank_withScope isNew (Turn.blank_resolve hr)
    have hs' := Step.fires_sequence.1 ((Sequence.fires_congr hblank).2 hs)
    rw [Sequence.turn_settle]
    exact (Turn.Adds.of_eq (Turn.Draws.of_resolve hr).spawned).trans
      (ho.2 (hs' _ (List.mem_of_getElem? hc)))
  nested ho := ⟨(keepsBlank_kept stage).nested ho.1, ho.2⟩
  fire params f t := by
    refine ⟨(keepsBlank_kept stage).fire params f t, fun hs => ?_⟩
    rcases f.dispatch_cases stage params t with ⟨_, _, _, hd, -, h⟩ |
      ⟨_, _, _, r, t', -, -, hd, h⟩ <;> rw [h]
    · exact .of_eq hd.spawned
    · have hmake := t'.adds_make (hP f.definition r · (Step.fires_fire.1 hs))
      exact (Turn.Adds.of_eq hd.spawned).trans hmake
  mutation params m t := by
    refine ⟨(keepsBlank_kept stage).mutation params m t, fun _ => ?_⟩
    rcases m.dispatch_cases stage params t with ⟨_, _, -, hd, h⟩ | ⟨_, _, _, -, hd, -, h⟩ <;> rw [h]
    · exact .of_eq hd.spawned
    · exact .of_eq hd.spawned
  wait params w t := by
    refine ⟨(keepsBlank_kept stage).wait params w t, fun _ => ?_⟩
    rcases w.dispatch_cases stage params t with ⟨_, _, -, hd, h⟩ | ⟨_, _, _, -, hd, -, h⟩ <;> rw [h]
    · exact .of_eq hd.spawned
    · exact .of_eq hd.spawned
  vanish params triggered t := ⟨(keepsBlank_kept stage).vanish params triggered t, fun _ => .of_eq rfl⟩
  countFails hl hr :=
    ⟨(keepsBlank_kept stage).countFails hl hr, fun _ => .of_eq (Turn.Draws.of_eval hr).spawned⟩
  entered hl hr ho := by
    refine ⟨(keepsBlank_kept stage).entered hl hr ho.1, fun hs => ?_⟩
    have hbody := Step.fires_loop.1 hs
    exact (Turn.Adds.of_eq (Turn.Draws.of_eval hr).spawned).trans (ho.2 hbody)
  resumed hl ho :=
    ⟨(keepsBlank_kept stage).resumed hl ho.1, fun hs => ho.2 (Step.fires_loop.1 hs)⟩
  ended hl hn := ⟨(keepsBlank_kept stage).ended hl hn, fun _ => .of_eq rfl⟩
  exhausted hl hn hb := ⟨(keepsBlank_kept stage).exhausted hl hn hb, fun _ => .of_eq rfl⟩
  fails hl hn hb ho he := ⟨(keepsBlank_kept stage).fails hl hn hb ho.1 he, ho.2⟩
  yields hl hn hb ho he hy := ⟨(keepsBlank_kept stage).yields hl hn hb ho.1 he hy, ho.2⟩
  again {_ l _ _ o _} hl hn hb ho he hy hr := by
    refine ⟨(keepsBlank_kept stage).again hl hn hb ho.1 he hy hr.1, fun hs => ?_⟩
    -- The next round fires the same definitions: the body is blank as it was.
    have hbody := (LoopStep.blank_settle { l with body := o.step }).2.trans ho.1
    exact (ho.2 hs).trans (hr.2 ((Sequence.fires_congr hbody).2 hs))

/-- The bullets that a turn makes are made from definitions of the fires in the sequence. -/
theorem Sequence.advance_adds (params : Params) {s : Sequence Step} (hs : (Step.sequence s).Fires Q)
    (t : Turn φ ρ α) : t.Adds P (s.advance stage params t).turn :=
  ((Contract.adds_kept hP).advance params s t).2 hs

end Barrage
