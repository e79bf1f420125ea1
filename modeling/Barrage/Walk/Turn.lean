import Barrage.Turn.Lemmas
import Barrage.Walk.Lemmas

/-!
# Turns as parts of walks

* `Turn.world`: what a walk sees of a turn. Time, iterations and the journal are left out.
* `Turn.walk_draw_ok`, `Turn.walk_draw_error`: a part of a turn that only evaluates is a draw; so is one
  formula (`Turn.walk_eval_ok`, `Turn.walk_eval_error`).
* `Turn.run_create`: turns and walks make bullets alike.
* `Turn.run_evalAll`, `Turn.run_request` and their like: turns and walks draw the same.
-/

namespace Barrage

variable {φ ρ α β : Type}

/-- What the turns at a stage and the walk have in common. -/
def Stage.scene (stage : Stage) (owner : Bullet α) : Scene α :=
  ⟨stage.builder, stage.frame.target, stage.frame.rank, owner⟩

namespace Turn

/-- What a walk sees of a turn that comes after some bullets were made. -/
def world (made : List (Spawn α)) (t : Turn φ ρ α) : World φ ρ α :=
  ⟨t.factory, t.source, t.last, made ++ t.spawned.toList⟩

theorem Draws.world {t t' : Turn φ ρ α} (h : Draws t t') (made : List (Spawn α)) :
    t'.world made = { t.world made with source := t'.source } := by
  simp only [Turn.world, h.factory, h.last, h.spawned]

/-- A part of a turn that only evaluates is a draw. -/
theorem walk_draw_ok {d : Draw ρ β} {t t' : Turn φ ρ α} {x : β} (h : Draws t t')
    (hd : d.run t.source = (.ok x, t'.source)) (made : List (Spawn α)) :
    (Walk.draw d).run (t.world made) = (.ok x, t'.world made) := by
  rw [h.world]
  exact Walk.draw_ok hd

theorem walk_draw_error {d : Draw ρ β} {t t' : Turn φ ρ α} {e : EvalError} (h : Draws t t')
    (hd : d.run t.source = (.error e, t'.source)) (made : List (Spawn α)) :
    (Walk.draw d).run (t.world made)
      = ((.error (.failed (.evaluation e)), t'.world made) : Except Halt β × World φ ρ α) := by
  rw [h.world]
  exact Walk.draw_error hd

/-- Turns and walks make bullets alike. -/
theorem run_create [BulletFactory φ α] (stage : Stage) (definition : BulletDef Node) (r : Request)
    (t : Turn φ ρ α) (made : List (Spawn α)) :
    ((stage.scene t.owner).create definition r : Walk φ ρ α Unit).run (t.world made)
      = (.ok (), (t.make stage definition r).world made) := by
  simp only [world, make, log, Array.toList_push, ← List.append_assoc]
  rfl

variable [RandomSource ρ] (stage : Stage) (params : Params)

theorem run_eval (owner : Bullet α) (f : Formula) (t : Turn φ ρ α) :
    ((stage.scene owner).value params f : Draw ρ Scalar).run t.source
      = ((t.eval stage params f).1, (t.eval stage params f).2.source) := rfl

variable {stage params} in
/-- A walk evaluates a formula as a turn does. -/
theorem walk_eval_ok {f : Formula} {t t' : Turn φ ρ α} {x : Scalar}
    (h : t.eval stage params f = (.ok x, t')) (owner : Bullet α) (made : List (Spawn α)) :
    (Walk.draw ((stage.scene owner).value params f)).run (t.world made) = (.ok x, t'.world made) := by
  have hrun := run_eval stage params owner f t
  rw [h] at hrun
  exact walk_draw_ok (.of_eval h) hrun made

variable {stage params} in
theorem walk_eval_error {f : Formula} {t t' : Turn φ ρ α} {e : EvalError}
    (h : t.eval stage params f = (.error e, t')) (owner : Bullet α) (made : List (Spawn α)) :
    (Walk.draw ((stage.scene owner).value params f)).run (t.world made)
      = ((.error (.failed (.evaluation e)), t'.world made) : Except Halt Scalar × World φ ρ α) := by
  have hrun := run_eval stage params owner f t
  rw [h] at hrun
  exact walk_draw_error (.of_eval h) hrun made

theorem run_evalAll (owner : Bullet α) (fs : List Formula) (t : Turn φ ρ α) :
    ((stage.scene owner).values params fs : Draw ρ Params).run t.source
      = ((t.evalAll stage params fs).1, (t.evalAll stage params fs).2.source) := by
  induction fs generalizing t with
  | nil => rfl
  | cons f rest ih =>
    have h := run_eval stage params owner f t
    rw [Scene.values, List.mapM_cons, evalAll]
    rcases hr : t.eval stage params f with ⟨e | x, t₁⟩ <;> rw [hr] at h
    · exact run_error h
    · rw [run_ok h]
      have h₁ := ih t₁
      simp only
      rcases hr₁ : t₁.evalAll stage params rest with ⟨e | xs, t₂⟩ <;> rw [hr₁] at h₁
      · exact run_error h₁
      · exact run_ok h₁

theorem run_heading (spec : DirectionSpec) (t : Turn φ ρ α) :
    ((stage.scene t.owner).heading t.last params spec : Draw ρ Scalar).run t.source
      = ((t.heading stage params spec).1, (t.heading stage params spec).2.source) := by
  have h := run_eval stage params t.owner spec.value t
  have hd := draws_eval stage params spec.value t
  rw [Scene.heading, heading]
  rcases hr : t.eval stage params spec.value with ⟨e | x, t₁⟩ <;> rw [hr] at h hd
  · exact run_error h
  · have ho : t₁.owner = t.owner := hd.owner
    have hl : t₁.last = t.last := hd.last
    rw [run_ok h]
    simp only [headingOf, aim, inheritedHeading, ho, hl]
    rfl

theorem run_pace (spec : SpeedSpec) (t : Turn φ ρ α) :
    ((stage.scene t.owner).pace t.last params spec : Draw ρ Scalar).run t.source
      = ((t.pace stage params spec).1, (t.pace stage params spec).2.source) := by
  have h := run_eval stage params t.owner spec.value t
  have hd := draws_eval stage params spec.value t
  rw [Scene.pace, pace]
  rcases hr : t.eval stage params spec.value with ⟨e | x, t₁⟩ <;> rw [hr] at h hd
  · exact run_error h
  · have ho : t₁.owner = t.owner := hd.owner
    have hl : t₁.last = t.last := hd.last
    rw [run_ok h]
    simp only [paceOf, inheritedPace, ho, hl]
    rfl

theorem run_bulletParams (owner : Bullet α) (f : FireStep) (t : Turn φ ρ α) :
    ((stage.scene owner).bulletParams params f.args : Draw ρ Params).run t.source
      = ((t.bulletParams stage params f).1, (t.bulletParams stage params f).2.source) := by
  rcases f with ⟨fire, definition, _ | args, scope, fired⟩
  · rfl
  · exact run_evalAll stage params owner args t

theorem run_bulletHeading (inner : Params) (f : FireStep) (t : Turn φ ρ α) :
    ((stage.scene t.owner).bulletHeading t.last params inner f.fire f.definition
        : Draw ρ Scalar).run t.source
      = ((t.bulletHeading stage params inner f).1,
          (t.bulletHeading stage params inner f).2.source) := by
  rw [Scene.bulletHeading, bulletHeading]
  rcases f.fire.direction with _ | spec
  · rcases f.definition.direction with _ | spec
    · rfl
    · exact run_heading stage inner spec t
  · exact run_heading stage params spec t

theorem run_bulletPace (inner : Params) (f : FireStep) (t : Turn φ ρ α) :
    ((stage.scene t.owner).bulletPace t.last params inner f.fire f.definition
        : Draw ρ Scalar).run t.source
      = ((t.bulletPace stage params inner f).1,
          (t.bulletPace stage params inner f).2.source) := by
  rw [Scene.bulletPace, bulletPace]
  rcases f.fire.speed with _ | spec
  · rcases f.definition.speed with _ | spec
    · rfl
    · exact run_pace stage inner spec t
  · exact run_pace stage params spec t

theorem run_request (f : FireStep) (t : Turn φ ρ α) :
    ((stage.scene t.owner).request t.last params f.fire f.definition f.args : Draw ρ Request).run
        t.source
      = ((t.request stage params f).1, (t.request stage params f).2.source) := by
  have h₁ := run_bulletParams stage params t.owner f t
  have hd₁ := draws_bulletParams stage params f t
  rw [Scene.request, request]
  rcases hr₁ : t.bulletParams stage params f with ⟨e | inner, t₁⟩ <;> rw [hr₁] at h₁ hd₁
  · exact run_error h₁
  have h₂ := run_bulletHeading stage params inner f t₁
  have hd₂ := draws_bulletHeading stage params inner f t₁
  rw [hd₁.owner, hd₁.last] at h₂
  rw [run_ok h₁]
  simp only
  rcases hr₂ : t₁.bulletHeading stage params inner f with ⟨e | heading, t₂⟩ <;> rw [hr₂] at h₂ hd₂
  · exact run_error h₂
  have h₃ := run_bulletPace stage params inner f t₂
  rw [hd₂.owner, hd₂.last, hd₁.owner, hd₁.last] at h₃
  rw [run_ok h₂]
  simp only
  rcases hr₃ : t₂.bulletPace stage params inner f with ⟨e | pace, t₃⟩ <;> rw [hr₃] at h₃
  · exact run_error h₃
  · exact run_ok h₃

end Turn

end Barrage
