import Barrage.Turn.Fire

/-!
# Walks

A walk is what a pattern comes to if it never has to wait: one plain recursion over the nodes of an
action. It keeps no cursors and counts no time. Nodes that steer the owner are passed over, since
what they write depends on how time is cut.

* `Scene`: what stays as it is during a walk; `World`: what changes; `Halt`: how a walk ends early.
* `Scene.request`: what a fire asks for. `Scene.shoot`: asks for it and makes the bullet.
* `Scene.visit`: the walk of a node, given how actions are walked.
* `Scene.enter`: the walk of an action, by recursion on how much deeper actions may nest.
* `Scene.walk`: the walk of an action that is entered directly.
-/

namespace Barrage

/-- How a walk ends before its last node. -/
inductive Halt where
  | vanished
  | failed (error : StepError)
deriving DecidableEq

/-- What a walk changes. The bullets that were made are in the order in which they were made. -/
structure World (φ ρ α : Type) where
  factory : φ
  source : ρ
  last : LastFired
  made : List (Spawn α)

/-- What stays as it is during a walk. -/
structure Scene (α : Type) where
  builder : Builder
  target : Point
  rank : Scalar
  owner : Bullet α

/-- A computation that changes the world and may end early. -/
abbrev Walk (φ ρ α β : Type) := ExceptT Halt (StateM (World φ ρ α)) β

namespace Walk

variable {φ ρ α β : Type}

/-- A draw as a part of a walk; if it fails, so does the walk. -/
def draw (d : Draw ρ β) : Walk φ ρ α β := ExceptT.mk fun w =>
  match d.run w.source with
  | (.ok x, source) => (.ok x, { w with source })
  | (.error e, source) => (.error (.failed (.evaluation e)), { w with source })

/-- A walk that is repeated. -/
def times : Nat → Walk φ ρ α Unit → Walk φ ρ α Unit
  | 0, _ => pure ()
  | n + 1, m => do
    m
    times n m

end Walk

namespace Scene

variable {φ ρ α : Type} [RandomSource ρ] (scene : Scene α)

/-! ## Fires -/

/-- The value of a formula. -/
def value (params : Params) (f : Formula) : Draw ρ Scalar := f.eval scene.rank params

/-- The values of several formulas. -/
def values (params : Params) (fs : List Formula) : Draw ρ Params := fs.mapM (scene.value params)

/-- The heading from the owner towards the target. -/
def aim : Scalar := scene.owner.position.headingTo scene.target

/-- The heading that a direction asks for. -/
def heading (last : LastFired) (params : Params) (spec : DirectionSpec) : Draw ρ Scalar := do
  let value ← scene.value params spec.value
  pure <| normalizeDegrees <| match spec.kind with
    | .aim => scene.aim + value
    | .absolute => value
    | .relative => scene.owner.direction + value
    | .sequence => last.direction.getD scene.aim + value

/-- The speed that a speed asks for. -/
def pace (last : LastFired) (params : Params) (spec : SpeedSpec) : Draw ρ Scalar := do
  let value ← scene.value params spec.value
  pure <| match spec.kind with
    | .absolute => value
    | .relative => scene.owner.speed + value
    | .sequence => last.speed.getD scene.builder.config.defaultSpeed + value

/-- The parameters of the bullet: the arguments of the reference to its definition, or those of the
fire. -/
def bulletParams (params : Params) : Option (List Formula) → Draw ρ Params
  | some args => scene.values params args
  | none => pure params

/-- The heading of the bullet: the fire's own direction counts, else that of the definition, else the
heading fired last, else the aim. -/
def bulletHeading (last : LastFired) (params inner : Params) (fire : Fire Node)
    (definition : BulletDef Node) : Draw ρ Scalar :=
  match fire.direction, definition.direction with
  | some spec, _ => scene.heading last params spec
  | none, some spec => scene.heading last inner spec
  | none, none => pure (last.direction.getD scene.aim)

/-- The speed of the bullet. -/
def bulletPace (last : LastFired) (params inner : Params) (fire : Fire Node)
    (definition : BulletDef Node) : Draw ρ Scalar :=
  match fire.speed, definition.speed with
  | some spec, _ => scene.pace last params spec
  | none, some spec => scene.pace last inner spec
  | none, none => pure (last.speed.getD scene.builder.config.defaultSpeed)

/-- What a fire asks for. -/
def request (last : LastFired) (params : Params) (fire : Fire Node) (definition : BulletDef Node)
    (args : Option (List Formula)) : Draw ρ Request := do
  let inner ← scene.bulletParams params args
  let heading ← scene.bulletHeading last params inner fire definition
  let pace ← scene.bulletPace last params inner fire definition
  pure ⟨inner, heading, pace⟩

variable [BulletFactory φ α]

/-- Makes the bullet that was asked for. -/
def create (definition : BulletDef Node) (r : Request) : Walk φ ρ α Unit :=
  modify fun w =>
    let (bullet, factory) :=
      BulletFactory.create definition scene.owner r.heading r.pace w.factory
    let spawn := Spawn.of definition r bullet (Runner.ofSpawn scene.builder definition r.params)
    { w with
      factory
      last := ⟨some bullet.direction, some bullet.speed⟩
      made := w.made ++ [spawn] }

/-- A fire whose bullet definition is known. -/
def shoot (params : Params) (fire : Fire Node) (definition : BulletDef Node)
    (args : Option (List Formula)) : Walk φ ρ α Unit := do
  let w ← get
  let r ← Walk.draw (scene.request w.last params fire definition args)
  scene.create definition r

/-- A fire. -/
def fire (params : Params) (f : Fire Node) : Walk φ ρ α Unit :=
  match f.bullet with
  | .inline definition => scene.shoot params f definition none
  | .reference r =>
    match scene.builder.document.resolveBullet r.label with
    | .ok definition => scene.shoot params f definition (some r.args)
    | .error e => throw (.failed (.document e))

/-! ## Nodes and actions -/

/-- A labelled action, entered with arguments. An action without nodes is not entered. -/
def follow (enter : Params → Action Node → Walk φ ρ α Unit) (params : Params) (r : Reference) :
    Walk φ ρ α Unit :=
  match scene.builder.document.resolveAction r.label with
  | .ok a =>
    if a.children.isEmpty then pure ()
    else do
      let values ← Walk.draw (scene.values params r.args)
      enter values a
  | .error e => throw (.failed (.document e))

/-- The walk of a node, given how actions are walked. -/
def visit (enter : Params → Action Node → Walk φ ρ α Unit) (params : Params) :
    Node → Walk φ ρ α Unit
  | .action a => enter params a
  | .actionRef r => scene.follow enter params r
  | .loop count (.action a) => do
    let x ← Walk.draw (scene.value params count)
    Walk.times x.count.toNat (enter params a)
  | .loop count (.reference r) => do
    let x ← Walk.draw (scene.value params count)
    Walk.times x.count.toNat (scene.follow enter params r)
  | .fire f => scene.fire params f
  | .fireRef r =>
    match scene.builder.document.resolveFire r.label with
    | .ok f => do
      let values ← Walk.draw (scene.values params r.args)
      scene.fire values f
    | .error e => throw (.failed (.document e))
  | .changeDirection _ _ | .changeSpeed _ _ => pure ()
  | .accel _ _ _ => throw (.failed (.unsupported .accel))
  | .wait duration => do
    let _ ← Walk.draw (scene.value params duration)
  | .vanish => throw .vanished

/-- The walk of an action met at a depth, when actions may nest `levels` deeper. -/
def enter : Nat → Nat → Params → Action Node → Walk φ ρ α Unit
  | 0, depth, _, a => throw (.failed (.nestingTooDeep a.label (depth + 1)))
  | levels + 1, depth, params, a => a.children.forM (scene.visit (enter levels (depth + 1)) params)

/-- The walk of an action that is entered directly. -/
def walk (params : Params) (a : Action Node) : Walk φ ρ α Unit :=
  scene.enter scene.builder.maxDepth 0 params a

end Scene

end Barrage
