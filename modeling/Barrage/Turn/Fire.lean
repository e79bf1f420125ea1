import Barrage.Turn.Basic

/-!
# Firing

All formulas of a fire are evaluated before the bullet is made, so a fire that fails makes none.

* `Turn.heading` and `Turn.pace`: a direction or speed as it is to be taken.
* `Turn.request`: parameters, heading and speed of the bullet to be made. The fire's own direction
  counts, else that of the definition, else the heading fired last, else the aim; likewise the speed.
* `FireStep.dispatch`: makes the bullet and the runner of its pattern.
-/

namespace Barrage

namespace Turn

variable {φ ρ α : Type}

/-- The heading fired last, or the aim. -/
def inheritedHeading (stage : Stage) (t : Turn φ ρ α) : Scalar :=
  t.last.direction.getD (t.aim stage)

/-- The speed fired last, or the configured one. -/
def inheritedPace (stage : Stage) (t : Turn φ ρ α) : Scalar :=
  t.last.speed.getD stage.builder.config.defaultSpeed

/-- A heading made of a value and what it is counted from. -/
def headingOf (stage : Stage) (t : Turn φ ρ α) (kind : DirectionKind) (value : Scalar) : Scalar :=
  normalizeDegrees <| match kind with
    | .aim => t.aim stage + value
    | .absolute => value
    | .relative => t.owner.direction + value
    | .sequence => t.inheritedHeading stage + value

/-- A speed made of a value and what it is counted from. -/
def paceOf (stage : Stage) (t : Turn φ ρ α) (kind : SpeedKind) (value : Scalar) : Scalar :=
  match kind with
  | .absolute => value
  | .relative => t.owner.speed + value
  | .sequence => t.inheritedPace stage + value

variable [RandomSource ρ]

/-- The heading that a direction asks for. -/
def heading (stage : Stage) (params : Params) (spec : DirectionSpec) (t : Turn φ ρ α) :
    Except EvalError Scalar × Turn φ ρ α :=
  match t.eval stage params spec.value with
  | (.ok value, t) => (.ok (t.headingOf stage spec.kind value), t)
  | (.error e, t) => (.error e, t)

/-- The speed that a speed asks for. -/
def pace (stage : Stage) (params : Params) (spec : SpeedSpec) (t : Turn φ ρ α) :
    Except EvalError Scalar × Turn φ ρ α :=
  match t.eval stage params spec.value with
  | (.ok value, t) => (.ok (t.paceOf stage spec.kind value), t)
  | (.error e, t) => (.error e, t)

/-- The parameters of the bullet: the arguments of the reference to its definition, or those of the
fire. -/
def bulletParams (stage : Stage) (params : Params) (f : FireStep) (t : Turn φ ρ α) :
    Except EvalError Params × Turn φ ρ α :=
  match f.args with
  | some args => t.evalAll stage params args
  | none => (.ok params, t)

/-- The heading of the bullet. -/
def bulletHeading (stage : Stage) (params inner : Params) (f : FireStep) (t : Turn φ ρ α) :
    Except EvalError Scalar × Turn φ ρ α :=
  match f.fire.direction, f.definition.direction with
  | some spec, _ => t.heading stage params spec
  | none, some spec => t.heading stage inner spec
  | none, none => (.ok (t.inheritedHeading stage), t)

/-- The speed of the bullet. -/
def bulletPace (stage : Stage) (params inner : Params) (f : FireStep) (t : Turn φ ρ α) :
    Except EvalError Scalar × Turn φ ρ α :=
  match f.fire.speed, f.definition.speed with
  | some spec, _ => t.pace stage params spec
  | none, some spec => t.pace stage inner spec
  | none, none => (.ok (t.inheritedPace stage), t)

/-- Evaluates what a fire with the given parameters asks for. -/
def request (stage : Stage) (params : Params) (f : FireStep) (t : Turn φ ρ α) :
    Except EvalError Request × Turn φ ρ α :=
  match t.bulletParams stage params f with
  | (.error e, t) => (.error e, t)
  | (.ok inner, t) =>
    match t.bulletHeading stage params inner f with
    | (.error e, t) => (.error e, t)
    | (.ok heading, t) =>
      match t.bulletPace stage params inner f with
      | (.error e, t) => (.error e, t)
      | (.ok pace, t) => (.ok ⟨inner, heading, pace⟩, t)

end Turn

/-- The runner of a bullet's pattern, if its definition has one and it can be built. -/
def Runner.ofSpawn (builder : Builder) (definition : BulletDef Node) (params : Params) :
    Except StepError (Option Runner) :=
  if definition.actions.isEmpty then .ok none
  else some <$> Runner.ofBullet builder definition params

/-- A bullet that was made, with its runner bound to it or the reason why there is none. -/
def Spawn.of {α : Type} (definition : BulletDef Node) (r : Request) (bullet : Bullet α) :
    Except StepError (Option Runner) → Spawn α
  | .ok runner => ⟨definition, r, bullet, runner.map (·.bind bullet.id), none⟩
  | .error e => ⟨definition, r, bullet, none, some e⟩

namespace Turn

variable {φ ρ α : Type}

/-- Makes the bullet that was asked for. What the host gave it counts as fired last. -/
def make [BulletFactory φ α] (stage : Stage) (definition : BulletDef Node) (r : Request)
    (t : Turn φ ρ α) : Turn φ ρ α :=
  let (bullet, factory) := BulletFactory.create definition t.owner r.heading r.pace t.factory
  let spawn := Spawn.of definition r bullet (Runner.ofSpawn stage.builder definition r.params)
  { t with
    factory
    spawned := t.spawned.push spawn
    last := ⟨some bullet.direction, some bullet.speed⟩ }.log (.created bullet.id)

end Turn

/-- One turn of a fire in surroundings with the parameters `outer`. -/
def FireStep.dispatch {φ ρ α : Type} [RandomSource ρ] [BulletFactory φ α] (stage : Stage)
    (outer : Params) (f : FireStep) (t : Turn φ ρ α) : Outcome FireStep (Turn φ ρ α) :=
  match (t.log (.began .fire)).resolve stage outer f.scope with
  | (.error e, t) => ⟨f, t, some (.evaluation e)⟩
  | (.ok (scope, _), t) =>
    let f := { f with scope }
    match t.request stage (scope.params outer) f with
    | (.error e, t) => ⟨f, t, some (.evaluation e)⟩
    | (.ok r, t) =>
      ⟨{ f with fired := true }, (t.make stage f.definition r).leave .fire false none, none⟩

end Barrage
