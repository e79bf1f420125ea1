import Barrage.Except
import Barrage.Host.Foundry
import Barrage.Swarm.Recorded
import Barrage.Turn.Readings
import Barrage.Walk.Turn

/-!
# A fire is all or nothing

* `Scope.draw`, `FireStep.asks`: what a fire evaluates, as one computation that draws from the random
  source and may fail: its own arguments, then those of the bullet, then the heading, then the speed.
* `FireStep.readings`: the evaluations behind it.
* `FireStep.dispatch_asks`: a fire fails if that computation does, and then nothing else happens.
* `fire_all_or_nothing`: what comes of a fire.
-/

namespace Barrage

variable {φ ρ α : Type}

/-! ## What a fire asks for -/

section Asks

variable [RandomSource ρ]

/-- The parameters of a scope in surroundings with the parameters `outer`: its arguments are evaluated if
they have to be. -/
def Scope.draw (scene : Scene α) (outer : Params) : Scope → Draw ρ Params
  | .derived args _ false => scene.values outer args
  | scope => pure (scope.params outer)

/-- The parameters of a fire and what it asks for. -/
def FireStep.asks (scene : Scene α) (last : LastFired) (outer : Params) (f : FireStep) :
    Draw ρ (Params × Request) := do
  let params ← f.scope.draw scene outer
  let r ← scene.request last params f.fire f.definition f.args
  pure (params, r)

end Asks

/-- The evaluations of a fire with the given parameters, in order. -/
def FireStep.readings (outer params inner : Params) (f : FireStep) : List Reading :=
  against outer f.scope.pending ++ against params (f.args.getD []) ++ f.headingBy params inner
    ++ f.paceBy params inner

/-! ## Turns and draws -/

namespace Turn

variable [RandomSource ρ] (stage : Stage)

/-- A turn evaluates a scope as it is drawn. -/
theorem run_resolve (owner : Bullet α) (outer : Params) (scope : Scope) (t : Turn φ ρ α) :
    (scope.draw (stage.scene owner) outer : Draw ρ Params).run t.source
      = ((t.resolve stage outer scope).1.map (·.1.params outer),
          (t.resolve stage outer scope).2.source) := by
  rcases scope with _ | ⟨args, values, _ | _⟩
  · rfl
  · rw [Scope.draw, run_evalAll, resolve]
    rcases t.evalAll stage outer args with ⟨e | xs, t₁⟩ <;> rfl
  · rfl

/-- All that is evaluated for a request. -/
theorem reads_request {params : Params} {f : FireStep} {t t' : Turn φ ρ α} {r : Request}
    (h : t.request stage params f = (.ok r, t')) :
    Reads (against params (f.args.getD []) ++ f.headingBy params r.params ++ f.paceBy params r.params)
      t t' := by
  have h₁ := consults_bulletParams stage params f t
  rw [request] at h
  rcases hr₁ : t.bulletParams stage params f with ⟨e | inner, t₁⟩ <;> rw [hr₁] at h h₁
  · cases h
  have h₂ := reads_bulletHeading stage params inner f t₁
  simp only at h
  rcases hr₂ : t₁.bulletHeading stage params inner f with ⟨e | heading, t₂⟩ <;> rw [hr₂] at h h₂
  · cases h
  have h₃ := reads_bulletPace stage params inner f t₂
  simp only at h
  rcases hr₃ : t₂.bulletPace stage params inner f with ⟨e | pace, t₃⟩ <;> rw [hr₃] at h h₃
  · cases h
  · cases h
    exact ((h₁.reads rfl).trans h₂).trans h₃

end Turn

namespace FireStep

variable [RandomSource ρ] [BulletFactory φ α] (stage : Stage) (outer : Params) (f : FireStep)
  (t : Turn φ ρ α)

/-- A fire fails if what it asks for has no value, and then nothing happened but evaluations; else it
makes the bullet that it asks for. -/
theorem dispatch_asks :
    (∃ e t' scope, (f.asks (stage.scene t.owner) t.last outer).run t.source = (.error e, t'.source) ∧
      (t.log (.began .fire)).Draws t' ∧
      f.dispatch stage outer t = ⟨{ f with scope }, t', some (.evaluation e)⟩) ∨
    ∃ params r t' scope,
      (f.asks (stage.scene t.owner) t.last outer).run t.source = (.ok (params, r), t'.source) ∧
      (t.log (.began .fire)).Reads (f.readings outer params r.params) t' ∧ scope.params outer = params ∧
      f.dispatch stage outer t
        = ⟨{ f with scope, fired := true }, (t'.make stage f.definition r).leave .fire false none,
            none⟩ := by
  have hrun := Turn.run_resolve stage t.owner outer f.scope (t.log (.began .fire))
  have hreads := Turn.consults_resolve stage outer f.scope (t.log (.began .fire))
  have hdraws := Turn.draws_resolve stage outer f.scope (t.log (.began .fire))
  rw [asks, dispatch]
  -- The turn and the computation go through the same evaluations, so they part at the same one.
  rcases hr : (t.log (.began .fire)).resolve stage outer f.scope with ⟨e | ⟨scope, isNew⟩, t₁⟩ <;>
    rw [hr] at hrun hreads hdraws
  · exact .inl ⟨e, t₁, f.scope, run_error hrun, hdraws, rfl⟩
  have hrun₁ := Turn.run_request stage (scope.params outer) { f with scope } t₁
  have hdraws₁ := Turn.draws_request stage (scope.params outer) { f with scope } t₁
  have howner : t₁.owner = t.owner := hdraws.owner
  have hlast : t₁.last = t.last := hdraws.last
  rw [howner, hlast] at hrun₁
  simp only
  rcases hr₁ : t₁.request stage (scope.params outer) { f with scope } with ⟨e | r, t₂⟩ <;>
    rw [hr₁] at hrun₁ hdraws₁
  · refine .inl ⟨e, t₂, scope, ?_, hdraws.trans hdraws₁, rfl⟩
    exact (run_ok hrun).trans (run_error hrun₁)
  · refine .inr ⟨scope.params outer, r, t₂, scope, ?_, ?_, rfl, rfl⟩
    · exact (run_ok hrun).trans (run_ok hrun₁)
    · have hall := (hreads.reads rfl).trans (Turn.reads_request stage hr₁)
      rwa [← List.append_assoc, ← List.append_assoc] at hall

end FireStep

/-! ## What comes of a fire -/

/-- The parameters of a runner of a bullet are those it was built with. -/
theorem Runner.params_ofBullet {b : Builder} {d : BulletDef Node} {params : Params} {r : Runner}
    (h : ofBullet b d params = .ok r) : r.params = params := by
  obtain ⟨s, -, rfl⟩ := Except.map_ok h
  rfl

/-- A bullet that was made has no pattern to run, or a reason why its pattern could not be built, or a
runner that is bound to it and has its parameters. -/
inductive Spawn.Equipped (builder : Builder) (w : Spawn α) : Prop
  | idle (hactions : w.definition.actions = []) (hr : w.runner = none) (hf : w.fault = none)
  | faulty {x : StepError} (hactions : w.definition.actions ≠ [])
    (hx : Runner.ofBullet builder w.definition w.request.params = .error x) (hr : w.runner = none)
    (hf : w.fault = some x)
  | running {r : Runner} (hactions : w.definition.actions ≠ [])
    (hx : Runner.ofBullet builder w.definition w.request.params = .ok r)
    (hparams : r.params = w.request.params) (hr : w.runner = some (r.bind w.bullet.id))
    (hf : w.fault = none)

theorem Spawn.IsMade.equipped {builder : Builder} {w : Spawn α} (h : w.IsMade builder) :
    w.Equipped builder := by
  unfold IsMade Runner.ofSpawn at h
  by_cases hactions : w.definition.actions.isEmpty = true
  · rw [if_pos hactions] at h
    refine .idle (List.isEmpty_iff.1 hactions) ?_ ?_ <;> rw [h] <;> rfl
  · rw [if_neg hactions] at h
    have hne : w.definition.actions ≠ [] := fun hnil => hactions (List.isEmpty_iff.2 hnil)
    cases hx : Runner.ofBullet builder w.definition w.request.params with
    | error x =>
      rw [hx] at h
      refine .faulty hne hx ?_ ?_ <;> rw [h] <;> rfl
    | ok r =>
      rw [hx] at h
      refine .running hne hx (Runner.params_ofBullet hx) ?_ ?_
      · rw [h]
        rfl
      · rw [h]
        rfl

section Outcome

variable [RandomSource ρ] [BulletFactory φ α]

/-- A fire asks for a bullet by one computation: its own arguments are evaluated first, if they have to
be, then the arguments of the bullet, then its heading and its speed, and this is the order of the draws.

If that fails, the fire fails with the same error. The factory was not called, the owner, what counts as
fired last and everything else are as they were, and the fire is not done.

Otherwise the factory was called once, for the heading and the speed that were asked for. Each formula
was evaluated once. The bullet counts as fired last, the fire is done, and the bullet has no pattern, or a
runner with the parameters that were asked for, or a fault: that its pattern could not be built is no
error of the fire. -/
theorem fire_all_or_nothing (f : FireStep) (stage : Stage) (outer : Params)
    (t : Turn (Recorder φ α) ρ α) :
    let o := f.dispatch stage outer t
    let asked := (f.asks (stage.scene t.owner) t.last outer).run t.source
    f.dispatch stage outer t.unrecorded = o.unrecorded ∧
    o.turn.source = asked.2 ∧ o.turn.owner = t.owner ∧ o.turn.budget = t.budget ∧
    o.turn.mustYield = t.mustYield ∧
    (∀ e, asked.1 = .error e →
      o.error = some (.evaluation e) ∧ o.turn.factory = t.factory ∧ o.turn.spawned = t.spawned ∧
      o.turn.last = t.last ∧ ∃ scope, o.step = { f with scope }) ∧
    ∀ params r, asked.1 = .ok (params, r) →
      o.error = none ∧ ∃ (w : Spawn α) (scope : Scope),
        w.definition = f.definition ∧ w.request = r ∧
        o.turn.factory.creations = t.factory.creations ++ [⟨f.definition, r.heading, r.pace, w.bullet⟩] ∧
        BulletFactory.create f.definition t.owner r.heading r.pace t.factory.host
          = (w.bullet, o.turn.factory.host) ∧
        o.turn.spawned = t.spawned.push w ∧
        o.turn.last = ⟨some w.bullet.direction, some w.bullet.speed⟩ ∧
        o.step = { f with scope, fired := true } ∧ scope.params outer = params ∧
        t.Logs o.turn (.began .fire ::
          (f.readings outer params r.params).map (fun u => .evaluated u.1 u.2)
            ++ [.created w.bullet.id, .ended .fire false none]) ∧
        w.Equipped stage.builder := by
  refine ⟨f.dispatch_unrecorded stage outer t, ?_⟩
  rcases f.dispatch_asks stage outer t with ⟨e, t', scope, hrun, hdraws, h⟩ |
    ⟨params, r, t', scope, hrun, hreads, hparams, h⟩ <;> rw [h, hrun]
  · refine ⟨rfl, hdraws.owner, hdraws.budget, hdraws.mustYield, fun e' he => ?_, fun _ _ hok => ?_⟩
    · cases he
      exact ⟨rfl, hdraws.factory, hdraws.spawned, hdraws.last, scope, rfl⟩
    · cases hok
  · -- Up to the call of the factory nothing happened but evaluations.
    have hdraws := hreads.draws
    refine ⟨rfl, hdraws.owner, hdraws.budget, ?_, fun _ he => ?_, fun params' r' hok => ?_⟩
    · show ((t'.blocked || false) || t'.removed) = t.mustYield
      rw [Bool.or_false]
      exact hdraws.mustYield
    · cases he
    · cases hok
      have howner : t'.owner = t.owner := hdraws.owner
      have hfactory : t'.factory = t.factory := hdraws.factory
      have hspawned : t'.spawned = t.spawned := hdraws.spawned
      -- The factory is called with what the turn holds then, which is what it held at its start.
      let made := BulletFactory.create f.definition t'.owner r.heading r.pace t'.factory
      let w := Spawn.of f.definition r made.1 (Runner.ofSpawn stage.builder f.definition r.params)
      have hbullet : w.bullet = made.1 := Spawn.bullet_of _ _ _ _
      refine ⟨rfl, w, scope, Spawn.definition_of _ _ _ _, Spawn.request_of _ _ _ _, ?_, ?_, ?_, ?_, rfl,
        hparams, ?_, (Spawn.isMade_of _ _ _ _).equipped⟩
      · rw [hbullet, ← hfactory]
        rfl
      · rw [hbullet, ← howner, ← hfactory]
        rfl
      · rw [← hspawned]
        rfl
      · rw [hbullet]
        rfl
      · have hend : (t'.make stage f.definition r).Logs
            ((t'.make stage f.definition r).leave .fire false none) [.ended .fire false none] :=
          Turn.logs_log _ _
        have hmade : t'.Logs (t'.make stage f.definition r) [.created w.bullet.id] := by
          rw [hbullet]
          exact Turn.logs_log _ _
        have hall := (((t.logs_log (.began .fire)).trans hreads.logs).trans hmade).trans hend
        simpa using hall

end Outcome

/-- A fire with an argument for itself and one for its bullet, which takes its heading from the first and
its speed from the second. The bullet is to accelerate, which is not supported. -/
def faultyShot : FireStep :=
  ⟨⟨none, some ⟨.absolute, .param 1⟩, none, .reference ⟨"shot", [.binary .add (.param 1) (.number 1)]⟩⟩,
    ⟨some "shot", none, some ⟨.absolute, .param 1⟩, [.accel none none (.number 1)]⟩,
    some [.binary .add (.param 1) (.number 1)], .ofArgs [.number 10], false⟩

set_option maxRecDepth 10000 in
/-- That fire makes its bullet and does not fail; that there is no pattern is left to the bullet. -/
theorem fire_all_or_nothing_faulty :
    let stage : Stage := ⟨.bare .standard, ⟨1, ⟨0, -100⟩, 0⟩⟩
    let t : Turn (Recorder Foundry (Option String)) Tape (Option String) :=
      .start LabelledBullet.first (.start .plain) ⟨[], 0⟩ 1 .nothing
    let o := faultyShot.dispatch stage [] t
    o.error = none ∧ o.step.fired = true ∧ ∃ w : Spawn (Option String), o.turn.spawned = #[w] ∧
      w.request = ⟨[11], 10, 11⟩ ∧ w.runner = none ∧ w.fault = some (.unsupported .accel) := by
  intro stage t o
  have hasked : ((faultyShot.asks (stage.scene t.owner) t.last []).run t.source).1
      = .ok ([10], ⟨[11], 10, 11⟩) := by
    decide +kernel
  obtain ⟨-, -, -, -, -, -, hok⟩ := fire_all_or_nothing faultyShot stage [] t
  obtain ⟨herror, w, scope, hdefinition, hrequest, -, -, hspawned, -, hstep, -, -, hequipped⟩ :=
    hok _ _ hasked
  have hbuild : Runner.ofBullet stage.builder w.definition w.request.params
      = .error (.unsupported .accel) := by
    rw [hdefinition]
    rfl
  refine ⟨herror, by rw [hstep], w, hspawned, hrequest, ?_⟩
  cases hequipped with
  | idle hactions =>
    rw [hdefinition] at hactions
    cases hactions
  | faulty _ hx hr hf =>
    cases hbuild.symm.trans hx
    exact ⟨hr, hf⟩
  | running _ hx =>
    cases hbuild.symm.trans hx

end Barrage
