import Barrage.Turn.Advance

/-!
# Ticks of a runner

* `Tick`: a runner after a tick, with all that the tick changed and what it gave the host.
* `Runner.tick`: one tick. A runner that has ended does nothing. What was made before an error is
  handed over with it, and the pattern has ended.

A play is a series of ticks of one runner by a host that holds everything but time still: the owner,
the point that is aimed at and the rank. The factory and the random source go on from tick to tick.

* `Play.tick`: one tick more.
* `Runner.play`: the ticks for a list of times.
-/

namespace Barrage

/-- A runner after a tick, with all that the tick changed. -/
structure Tick (φ ρ α : Type) where
  runner : Runner
  owner : Bullet α
  factory : φ
  source : ρ
  /-- The bullets that were made, in order. -/
  spawned : List (Spawn α)
  /-- The owner was removed. -/
  removed : Bool
  /-- The error that ended the pattern. -/
  failure : Option StepError
  journal : Array Event

namespace Runner

/-- The iterations that loops may start in one tick: the configured cap, at least one. -/
def budget (r : Runner) : Nat := max r.builder.config.maxIterationsPerTick.toNat 1

/-- The state of a pattern after a turn without an error. -/
def stateAfter (removed : Bool) (root : Sequence Step) : RunnerState :=
  if removed then .vanished
  else if root.isDone then .completed
  else .running

variable {φ ρ α : Type} [RandomSource ρ] [BulletFactory φ α]

/-- The turn of a running pattern that starts a tick. -/
def turn (r : Runner) (owner : Bullet α) (factory : φ) (source : ρ) : Turn φ ρ α :=
  Turn.start owner factory source r.budget r.last

/-- The runner of a pattern after its turn. An error leaves alone what was fired last. -/
def afterTurn (r : Runner) (o : Outcome (Sequence Step) (Turn φ ρ α)) : Runner :=
  match o.error with
  | some _ => { r with root := o.step.finish, state := .aborted }
  | none =>
    let root := if o.turn.removed then o.step.finish else o.step
    { r with root, last := o.turn.last, state := stateAfter o.turn.removed o.step }

/-- What a pattern gives its host when it has no turn. -/
def rest (r : Runner) (owner : Bullet α) (factory : φ) (source : ρ) : Tick φ ρ α :=
  ⟨r, owner, factory, source, [], false, none, #[]⟩

/-- What a pattern gives its host after its turn. -/
def give (r : Runner) (o : Outcome (Sequence Step) (Turn φ ρ α)) : Tick φ ρ α :=
  let t := o.turn
  ⟨r.afterTurn o, t.owner, t.factory, t.source, t.spawned.toList, o.error.isNone && t.removed,
    o.error, t.journal⟩

/-- The runner with its owner named, if it was not. -/
def bindTo (r : Runner) (owner : BulletId) : Runner :=
  { r with owner := some (r.owner.getD owner) }

/-- One tick of a pattern and its owner. -/
def tick (r : Runner) (frame : Frame) (owner : Bullet α) (factory : φ) (source : ρ) :
    Tick φ ρ α :=
  if r.isRunning then
    let r := r.bindTo owner.id
    if r.root.isDone then { r with state := .completed }.rest owner factory source
    else r.give (r.root.advance ⟨r.builder, frame⟩ r.params (r.turn owner factory source))
  else r.rest owner factory source

end Runner

/-! ## Plays -/

/-- A runner that is being played: what its host holds, all bullets that were made and all errors
that were reported, in order. -/
structure Play (φ ρ α : Type) where
  runner : Runner
  factory : φ
  source : ρ
  spawned : List (Spawn α)
  failures : List StepError

variable {φ ρ α : Type} [RandomSource ρ] [BulletFactory φ α]

/-- One tick more. -/
def Play.tick (target : Point) (rank : Scalar) (owner : Bullet α) (p : Play φ ρ α)
    (delta : Scalar) : Play φ ρ α :=
  let x := p.runner.tick ⟨delta, target, rank⟩ owner p.factory p.source
  ⟨x.runner, x.factory, x.source, p.spawned ++ x.spawned, p.failures ++ x.failure.toList⟩

/-- The ticks of a runner for a list of times. -/
def Runner.play (r : Runner) (target : Point) (rank : Scalar) (owner : Bullet α) (factory : φ)
    (source : ρ) (deltas : List Scalar) : Play φ ρ α :=
  deltas.foldl (Play.tick target rank owner) ⟨r, factory, source, [], []⟩

end Barrage
