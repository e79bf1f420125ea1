import Barrage.Host.Source
import Barrage.Swarm

/-!
# Hosts

A small host: bullets carry the label of their definition and are numbered as they are made.

* `Foundry`: the next number, how many bullets were cast, and what is done to each of them.
* `Foundry.cast`: a bullet at the place of the one that fires, with the heading and speed that were
  asked for, its speed capped, its heading turned and its place moved as the foundry is set up.
* `Foundry.takeId`: a number for a bullet that was not cast.
* `Foundry.plain`: a foundry that has made nothing but `LabelledBullet.first`, and makes what it is
  asked for.

A quiet host for single patterns: it defines nothing, holds everything still and draws zeros.

* `Builder.bare`: a builder over a document without definitions.
* `Runner.quietTick`: a tick of a pattern that runs on its own.

Hosts that keep a record:

* `Creation`: a call to a factory, what was asked for and the bullet that came of it.
* `Recorder`: a host that does what another does and lists the calls to its factory, in order.
* `Recorder.start`: nothing was called yet.
* `Turn.unrecorded`, `Tick.unrecorded`, `Swarm.Ticked.unrecorded`: a turn or a tick without the record.
-/

namespace Barrage

/-! ## A foundry of labelled bullets -/

/-- A host that numbers the bullets it makes. -/
structure Foundry where
  lastId : UInt64
  cast : Nat
  maxSpeed : Option Scalar
  turn : Option Scalar
  offset : Option Point
deriving DecidableEq

/-- A bullet that keeps the label of its definition. -/
abbrev LabelledBullet := Bullet (Option String)

namespace Foundry

/-- The next number. -/
def takeId (f : Foundry) : BulletId × Foundry :=
  (⟨f.lastId + 1⟩, { f with lastId := f.lastId + 1 })

/-- A speed under the cap of the foundry. -/
def capSpeed (f : Foundry) (speed : Scalar) : Scalar :=
  match f.maxSpeed with
  | some cap => if speed > cap then cap else speed
  | none => speed

/-- A heading turned as the foundry does. -/
def turnHeading (f : Foundry) (heading : Scalar) : Scalar :=
  match f.turn with
  | some turn => heading + turn
  | none => heading

/-- A place moved as the foundry does. -/
def move (f : Foundry) (place : Point) : Point :=
  match f.offset with
  | some offset => place.add offset
  | none => place

/-- Makes a bullet. -/
def make (definition : BulletDef Node) (origin : LabelledBullet) (heading speed : Scalar)
    (f : Foundry) : LabelledBullet × Foundry :=
  let (id, f) := f.takeId
  (⟨id, f.move origin.position, f.turnHeading heading, f.capSpeed speed, definition.label⟩,
    { f with cast := f.cast + 1 })

instance : BulletFactory Foundry (Option String) := ⟨make⟩

/-- A foundry that has given away the number of one bullet and makes others as they are asked for. -/
def plain : Foundry := ⟨1, 0, none, none, none⟩

end Foundry

/-- The bullet that took the first number. -/
def LabelledBullet.first : LabelledBullet := ⟨⟨1⟩, ⟨0, 0⟩, 0, 1, some "owner"⟩

/-! ## A quiet host -/

/-- A builder over a document without definitions. -/
def Builder.bare (config : Config) : Builder := ⟨⟨[], [], []⟩, config⟩

/-- A tick of length one of the pattern of the first bullet. The target is straight above it. -/
def Runner.quietTick (r : Runner) : Tick Foundry Tape (Option String) :=
  r.tick ⟨1, ⟨0, -100⟩, 0⟩ LabelledBullet.first .plain ⟨[], 0⟩

/-! ## Hosts that keep a record -/

/-- A call to a factory: what was asked for, and the bullet that came of it. -/
structure Creation (α : Type) where
  definition : BulletDef Node
  heading : Scalar
  pace : Scalar
  bullet : Bullet α

/-- The call that a bullet came of. -/
def Spawn.creation {α : Type} (w : Spawn α) : Creation α :=
  ⟨w.definition, w.request.heading, w.request.pace, w.bullet⟩

/-- A host and the calls to its factory, in order. -/
structure Recorder (φ α : Type) where
  host : φ
  creations : List (Creation α)

namespace Recorder

variable {φ α : Type}

/-- A host whose factory was not called yet. -/
def start (host : φ) : Recorder φ α := ⟨host, []⟩

instance [BulletFactory φ α] : BulletFactory (Recorder φ α) α where
  create definition origin heading pace recorder :=
    let (bullet, host) := BulletFactory.create definition origin heading pace recorder.host
    (bullet, ⟨host, recorder.creations ++ [⟨definition, heading, pace, bullet⟩]⟩)

end Recorder

variable {φ ρ α : Type}

/-- The turn without the record. -/
def Turn.unrecorded (t : Turn (Recorder φ α) ρ α) : Turn φ ρ α :=
  { t with factory := t.factory.host }

/-- The outcome without the record. -/
def Outcome.unrecorded {σ : Type} (o : Outcome σ (Turn (Recorder φ α) ρ α)) :
    Outcome σ (Turn φ ρ α) :=
  ⟨o.step, o.turn.unrecorded, o.error⟩

/-- The tick without the record. -/
def Tick.unrecorded (x : Tick (Recorder φ α) ρ α) : Tick φ ρ α :=
  { x with factory := x.factory.host }

/-- The entries after a tick without the record. -/
def Pass.unrecorded (p : Pass (Recorder φ α) ρ α) : Pass φ ρ α :=
  { p with factory := p.factory.host }

/-- The tick of a swarm without the record. -/
def Swarm.Ticked.unrecorded (x : Ticked (Recorder φ α) ρ α) : Ticked φ ρ α :=
  { x with factory := x.factory.host }

end Barrage
