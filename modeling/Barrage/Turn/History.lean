import Barrage.Runner.Tick
import Barrage.Step.Forget
import Barrage.Turn.Program

/-!
# Histories

A host builds a program or a runner and then calls it, in any order and with any owner, factory and
random source each time. The frame of a call to a program may be one that runners had their ticks on, and
hold any number of iterations.

* `Program.Origin`: what a program is built from; `Runner.New`: the runners that can be built.
* `Program.Call`, `Runner.Call`: what a host may do; `run` is the state after a call and what the
  call gave.
* `Program.Reach`, `Runner.Reach`: some calls lead from one state to another. The hosts of the calls
  may be of different types.
* `Program.answers`, `Runner.answers`: what a host sees of calls that it makes one after the other.
  Values that no longer hold are left out of the states that it sees.
-/

namespace Barrage

/-! ## Programs -/

namespace Program

/-- What a program is built from. -/
inductive Origin where
  | node (node : Node)
  | action (action : Action Node)
  | bullet (definition : BulletDef Node)

/-- A new program. -/
def Origin.build (builder : Builder) (params : Params) : Origin → Except StepError Program
  | node n => ofNode builder n params
  | action a => ofAction builder a params
  | bullet d => ofBullet builder d params

/-- What a host may do with a program. -/
inductive Call (φ ρ α : Type) where
  | execute (frame : Frame) (owner : Bullet α) (factory : φ) (source : ρ) (last : LastFired)
    (budget : Nat)
  | update (params : Params)
  | reset
  | finish
  /-- Naming the owner of a program changes nothing in it. -/
  | bind (owner : BulletId)

section Calls

variable {φ ρ α : Type} [RandomSource ρ] [BulletFactory φ α]

/-- The program after a call, and the turn if the call was one. -/
def Call.run (p : Program) : Call φ ρ α → Program × Option (Executed φ ρ α)
  | execute frame owner factory source last budget =>
    let x := p.execute frame owner factory source last budget
    (x.program, some x)
  | update params => (p.update params, none)
  | reset => (p.reset, none)
  | finish => (p.finish, none)
  | bind _ => (p, none)

end Calls

/-- Some calls lead from one program to another. -/
inductive Reach (p : Program) : Program → Prop where
  | refl : Reach p p
  | call {φ ρ α : Type} [RandomSource ρ] [BulletFactory φ α] {p' : Program} (c : Call φ ρ α) :
    Reach p p' → Reach p (c.run p').1

/-- The program without values that no longer hold. -/
def forget (p : Program) : Program := { p with step := p.step.forget }

end Program

/-- The turn with values that no longer hold left out. -/
def Executed.forget {φ ρ α : Type} (x : Executed φ ρ α) : Executed φ ρ α :=
  { x with program := x.program.forget }

/-- What a host sees of calls to a program. -/
def Program.answers {φ ρ α : Type} [RandomSource ρ] [BulletFactory φ α] (p : Program) :
    List (Call φ ρ α) → List (Program × Option (Executed φ ρ α))
  | [] => []
  | c :: calls =>
    ((c.run p).1.forget, (c.run p).2.map Executed.forget) :: (c.run p).1.answers calls

/-! ## Runners -/

namespace Runner

/-- The runners that can be built. -/
inductive New : Runner → Prop where
  | label {builder label params r} : ofLabel builder label params = .ok r → New r
  | action {builder action params r} : ofAction builder action params = .ok r → New r
  | bullet {builder definition params r} : ofBullet builder definition params = .ok r → New r

/-- What a host may do with a runner. -/
inductive Call (φ ρ α : Type) where
  | tick (frame : Frame) (owner : Bullet α) (factory : φ) (source : ρ)
  | bind (owner : BulletId)
  | restart
  | cancel

section Calls

variable {φ ρ α : Type} [RandomSource ρ] [BulletFactory φ α]

/-- The runner after a call, and the tick if the call was one. -/
def Call.run (r : Runner) : Call φ ρ α → Runner × Option (Tick φ ρ α)
  | tick frame owner factory source =>
    let x := r.tick frame owner factory source
    (x.runner, some x)
  | bind owner => (r.bind owner, none)
  | restart => (r.restart, none)
  | cancel => (r.cancel, none)

end Calls

/-- Some calls lead from one runner to another. -/
inductive Reach (r : Runner) : Runner → Prop where
  | refl : Reach r r
  | call {φ ρ α : Type} [RandomSource ρ] [BulletFactory φ α] {r' : Runner} (c : Call φ ρ α) :
    Reach r r' → Reach r (c.run r').1

/-- The runner without values that no longer hold. -/
def forget (r : Runner) : Runner := { r with root := r.root.forget }

end Runner

/-- The tick with values that no longer hold left out. -/
def Tick.forget {φ ρ α : Type} (x : Tick φ ρ α) : Tick φ ρ α :=
  { x with runner := x.runner.forget }

/-- What a host sees of calls to a runner. -/
def Runner.answers {φ ρ α : Type} [RandomSource ρ] [BulletFactory φ α] (r : Runner) :
    List (Call φ ρ α) → List (Runner × Option (Tick φ ρ α))
  | [] => []
  | c :: calls => ((c.run r).1.forget, (c.run r).2.map Tick.forget) :: (c.run r).1.answers calls

end Barrage
