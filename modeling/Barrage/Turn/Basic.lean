import Barrage.Runner.Basic

/-!
# Turns

A turn is one call into a tree of steps. What the steps read and do not change is its stage; what they
change is the turn itself.

* `Frame`: the inputs of a tick.
* `Request`: what a fire asks the host for.
* `Spawn`: a bullet that was made, with what was asked for and the runner of its pattern or the
  reason why there is none.
* `Clock`: how a timed step stands when it has its turn.
* `Event`: what a step did. The journal of a turn lists them in order.
* `Turn`: the owner, the host's factory and random source, the iterations that are left, what was
  made so far, and whether the turn has to end.
* `Outcome`: a step after a turn, and the error that ended the turn.
-/

namespace Barrage

/-- The inputs of a tick: the time since the last, the point that is aimed at, and the rank. -/
structure Frame where
  delta : Scalar
  target : Point
  rank : Scalar
deriving DecidableEq

/-- What a fire asks for: the bullet's parameters, heading and speed, evaluated in this order. -/
structure Request where
  params : Params
  heading : Scalar
  pace : Scalar
deriving DecidableEq

/-- A bullet that was made from a definition on request. It is there even if its pattern could not
be built. -/
structure Spawn (α : Type) where
  definition : BulletDef Node
  request : Request
  bullet : Bullet α
  runner : Option Runner
  fault : Option StepError

/-- How a timed step stands when it has its turn: the time that it was credited with before, and how
long it takes. -/
structure Clock where
  elapsed : Scalar
  duration : Scalar
deriving DecidableEq

/-- What a step did. -/
inductive Event where
  /-- A formula was evaluated against these parameters. -/
  | evaluated (formula : Formula) (params : Params)
  /-- A leaf was given its turn. -/
  | began (kind : StepKind)
  /-- A leaf ended its turn; whether it goes on next time, and its clock if it is a timed step. -/
  | ended (kind : StepKind) (running : Bool) (clock : Option Clock)
  /-- A bullet was made. -/
  | created (id : BulletId)
  /-- The owner's heading or speed was written. -/
  | steered
  /-- A loop started an iteration. -/
  | iterated
  /-- A loop had to wait because no iterations were left. -/
  | exhausted
deriving DecidableEq

/-- What the steps of a turn read: the builder they come from and the inputs of the tick. -/
structure Stage where
  builder : Builder
  frame : Frame

/-- What the steps of a turn change. -/
structure Turn (φ ρ α : Type) where
  owner : Bullet α
  factory : φ
  source : ρ
  /-- Iterations that loops may still start. -/
  budget : Nat
  spawned : Array (Spawn α)
  last : LastFired
  /-- A vanish removed the owner. -/
  removed : Bool
  /-- A timed step goes on, or no iterations are left. -/
  blocked : Bool
  journal : Array Event

/-- A step after a turn, and the error that ended it. -/
structure Outcome (σ τ : Type) where
  step : σ
  turn : τ
  error : Option StepError

/-- The outcome with its step seen as part of another. -/
def Outcome.map {σ σ' τ : Type} (f : σ → σ') (o : Outcome σ τ) : Outcome σ' τ :=
  ⟨f o.step, o.turn, o.error⟩

namespace Turn

variable {φ ρ α : Type}

/-- A turn that is about to start. -/
def start (owner : Bullet α) (factory : φ) (source : ρ) (budget : Nat) (last : LastFired) :
    Turn φ ρ α :=
  ⟨owner, factory, source, budget, #[], last, false, false, #[]⟩

/-- The turn with an event at the end of its journal. -/
def log (t : Turn φ ρ α) (e : Event) : Turn φ ρ α := { t with journal := t.journal.push e }

/-- Whether no more steps may run. -/
def mustYield (t : Turn φ ρ α) : Bool := t.blocked || t.removed

/-- Starts an iteration, which uses one up. -/
def spend (t : Turn φ ρ α) : Turn φ ρ α := { t with budget := t.budget - 1 }.log .iterated

/-- Stops because no iterations are left. -/
def exhaust (t : Turn φ ρ α) : Turn φ ρ α := { t with blocked := true }.log .exhausted

/-- Ends the turn of a leaf; one that goes on ends the whole turn. -/
def leave (t : Turn φ ρ α) (kind : StepKind) (running : Bool) (clock : Option Clock) :
    Turn φ ρ α :=
  { t with blocked := t.blocked || running }.log (.ended kind running clock)

/-- The heading from the owner towards the target. -/
def aim (t : Turn φ ρ α) (stage : Stage) : Scalar :=
  t.owner.position.headingTo stage.frame.target

/-- The value of a formula. -/
def eval [RandomSource ρ] (stage : Stage) (params : Params) (f : Formula) (t : Turn φ ρ α) :
    Except EvalError Scalar × Turn φ ρ α :=
  let (r, source) := (f.eval stage.frame.rank params).run t.source
  (r, { t with source }.log (.evaluated f params))

/-- The values of several formulas, up to the first that has none. -/
def evalAll [RandomSource ρ] (stage : Stage) (params : Params) :
    List Formula → Turn φ ρ α → Except EvalError Params × Turn φ ρ α
  | [], t => (.ok [], t)
  | f :: rest, t =>
    match t.eval stage params f with
    | (.error e, t) => (.error e, t)
    | (.ok x, t) =>
      match evalAll stage params rest t with
      | (.error e, t) => (.error e, t)
      | (.ok xs, t) => (.ok (x :: xs), t)

/-- The scope with its arguments evaluated, if they were not; whether they were evaluated now. -/
def resolve [RandomSource ρ] (stage : Stage) (outer : Params) (scope : Scope) (t : Turn φ ρ α) :
    Except EvalError (Scope × Bool) × Turn φ ρ α :=
  match scope with
  | .derived args _ false =>
    match t.evalAll stage outer args with
    | (.error e, t) => (.error e, t)
    | (.ok values, t) => (.ok (.derived args values true, true), t)
  | scope => (.ok (scope, false), t)

end Turn

end Barrage
