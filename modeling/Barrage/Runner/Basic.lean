import Barrage.Bullet
import Barrage.Step.Build

/-!
# Runners

A runner owns the steps of one bullet's pattern from its start to its end.

* `LastFired`: heading and speed of the bullet fired last.
* `RunnerState`: running, or how the run came to an end.
* `Runner.ofLabel`, `Runner.ofAction`, `Runner.ofBullet`: a new runner.
* `Runner.restart`, `Runner.cancel`, `Runner.bind`: what a host may do to one.
-/

namespace Barrage

/-- Heading and speed of the bullet fired last, none before the first. -/
structure LastFired where
  direction : Option Scalar
  speed : Option Scalar
deriving DecidableEq

/-- Nothing was fired yet. -/
def LastFired.nothing : LastFired := ⟨none, none⟩

/-- Whether a pattern is running, or how it ended. -/
inductive RunnerState where
  | running
  /-- All steps are done. -/
  | completed
  /-- A vanish removed the owner. -/
  | vanished
  /-- An error ended the pattern. -/
  | aborted
  /-- The host gave the pattern up. -/
  | cancelled
deriving DecidableEq, Repr

/-- The name of a state. -/
def RunnerState.name : RunnerState → String
  | running => "running"
  | completed => "completed"
  | vanished => "vanished"
  | aborted => "aborted"
  | cancelled => "cancelled"

/-- The pattern of one bullet: its steps, the parameters it was entered with, and its state. -/
structure Runner where
  builder : Builder
  params : Params
  root : Sequence Step
  last : LastFired
  owner : Option BulletId
  state : RunnerState

namespace Runner

/-- A runner at the start of a sequence. -/
def ofRoot (builder : Builder) (params : Params) (root : Sequence Step) : Runner :=
  ⟨builder, params, root, .nothing, none, .running⟩

/-- A runner of an action. -/
def ofAction (builder : Builder) (action : Action Node) (params : Params) :
    Except StepError Runner :=
  ofRoot builder params <$> builder.action action

/-- A runner of a labelled action. -/
def ofLabel (builder : Builder) (label : String) (params : Params) : Except StepError Runner :=
  match builder.document.resolveAction label with
  | .ok action => ofAction builder action params
  | .error e => .error (.document e)

/-- A runner of what a bullet definition does. -/
def ofBullet (builder : Builder) (definition : BulletDef Node) (params : Params) :
    Except StepError Runner :=
  ofRoot builder params <$> builder.bullet definition

/-- Whether the pattern has not ended yet. -/
def isRunning (r : Runner) : Bool := r.state == .running

/-- The runner with its owner named. -/
def bind (r : Runner) (owner : BulletId) : Runner := { r with owner := some owner }

/-- The runner back at its start. Only its owner stays. -/
def restart (r : Runner) : Runner :=
  let root := if r.isRunning then r.root.finish else r.root
  { r with root := root.reset, last := .nothing, state := .running }

/-- The runner given up on, unless it has ended already. -/
def cancel (r : Runner) : Runner :=
  if r.isRunning then { r with root := r.root.finish, state := .cancelled } else r

end Runner

end Barrage
