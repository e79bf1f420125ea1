import Barrage.Formula.Eval
import Barrage.Pattern.Node

/-!
# Steps

A step is the live form of one node. What it has done so far is plain state, a cursor, a counter, the
time that has passed, so a pattern can stop after any tick and go on at the next.

* `Scope`: where the parameters of a step come from. A shared scope has those of its surroundings; a
  derived one evaluates the arguments of a reference when it is entered.
* `Sequence`, `LoopStep`, `FireStep`, `MutationStep`, `WaitStep`: the steps by kind, and `Step`, which
  ties the knot.
* `Step.isDone`, `Step.isFinished`, `Sequence.activePath`, `Sequence.height`: views.
* `Step.expire`: the parameters around a step have changed, so the derived scopes nearest to it have
  to be evaluated again.
* `Step.reset`: back to the start; `Step.finish`: given up on before the end.
-/

namespace Barrage

/-- Where the parameters of a step come from. -/
inductive Scope where
  /-- The parameters of the surroundings. -/
  | shared
  /-- The values of arguments: the latest that were derived, and whether they still hold. -/
  | derived (args : List Formula) (values : Params) (current : Bool)
deriving DecidableEq

namespace Scope

/-- A scope of arguments that were not evaluated yet. -/
def ofArgs (args : List Formula) : Scope := derived args [] false

/-- The parameters of a scope in surroundings with the parameters `outer`. -/
def params (outer : Params) : Scope → Params
  | shared => outer
  | derived _ values _ => values

/-- The scope with its arguments to be evaluated again. -/
def expire : Scope → Scope
  | shared => shared
  | derived args values _ => derived args values false

/-- Whether the scope has the parameters of its surroundings. -/
def isShared : Scope → Bool
  | shared => true
  | derived .. => false

end Scope

/-- An ordered list of steps and the place of the next. -/
structure Sequence (σ : Type) where
  label : Option String
  scope : Scope
  children : List σ
  cursor : Nat

/-- A sequence that is run a number of times. The number is evaluated when the loop is entered. -/
structure LoopStep (σ : Type) where
  times : Formula
  target : Option Nat
  completed : Nat
  body : Sequence σ

/-- A request for one bullet. The arguments are those of a reference to its definition. -/
structure FireStep where
  fire : Fire Node
  definition : BulletDef Node
  args : Option (List Formula)
  scope : Scope
  fired : Bool

/-- What a mutation changes, and towards which value. -/
inductive Steering where
  | direction (spec : DirectionSpec)
  | speed (spec : SpeedSpec)
deriving DecidableEq

/-- A change from one value to another over some time. -/
structure Glide where
  start : Scalar
  goal : Scalar
  duration : Scalar
deriving DecidableEq

/-- A change of the owner's heading or speed. The glide is settled when the mutation is entered. -/
structure MutationStep where
  steering : Steering
  term : Formula
  glide : Option Glide
  elapsed : Scalar
  finished : Bool
deriving DecidableEq

/-- A pause. Its duration is evaluated when it is entered. -/
structure WaitStep where
  length : Formula
  duration : Option Scalar
  elapsed : Scalar
  finished : Bool
deriving DecidableEq

/-- The live form of one node. -/
inductive Step where
  | sequence (sequence : Sequence Step)
  | loop (loop : LoopStep Step)
  | fire (fire : FireStep)
  | mutation (mutation : MutationStep)
  | wait (wait : WaitStep)
  | vanish (triggered : Bool)

/-- The kinds of steps. -/
inductive StepKind where
  | sequence
  | loop
  | fire
  | mutation
  | wait
  | vanish
deriving DecidableEq, Repr

/-- The name of a kind of steps. -/
def StepKind.name : StepKind → String
  | sequence => "sequence"
  | loop => "repeat"
  | fire => "fire"
  | mutation => "mutation"
  | wait => "wait"
  | vanish => "vanish"

/-- The kind of a step. -/
def Step.kind : Step → StepKind
  | sequence _ => .sequence
  | loop _ => .loop
  | fire _ => .fire
  | mutation _ => .mutation
  | wait _ => .wait
  | vanish _ => .vanish

/-! ## Views -/

namespace Sequence

variable {σ : Type}

/-- A sequence is done when its cursor has passed the last step. -/
def isDone (s : Sequence σ) : Bool := s.children.length ≤ s.cursor

/-- The step under the cursor. -/
def current? (s : Sequence σ) : Option σ := s.children[s.cursor]?

/-- The parameters of a sequence in surroundings with the parameters `outer`. -/
def params (s : Sequence σ) (outer : Params) : Params := s.scope.params outer

end Sequence

/-- A loop is done when it has been entered and has run as often as it should. -/
def LoopStep.isDone {σ : Type} (l : LoopStep σ) : Bool :=
  match l.target with
  | some target => target ≤ l.completed
  | none => false

/-- A mutation is done when its time is over. -/
def MutationStep.isDone (m : MutationStep) : Bool :=
  match m.glide with
  | some glide => m.elapsed ≥ glide.duration
  | none => false

/-- A pause is over when its time is. -/
def WaitStep.isDone (w : WaitStep) : Bool :=
  match w.duration with
  | some duration => w.elapsed ≥ duration
  | none => false

/-- Whether a step has nothing left to do. -/
def Step.isDone : Step → Bool
  | sequence s => s.isDone
  | loop l => l.isDone
  | fire f => f.fired
  | mutation m => m.isDone
  | wait w => w.isDone
  | vanish triggered => triggered

mutual

/-- Whether the active leaf under a step was given up on. -/
def Step.isFinished : Step → Bool
  | .sequence s => s.isFinished
  | .loop l => l.isFinished
  | .mutation m => m.finished
  | .wait w => w.finished
  | .fire _ | .vanish _ => false
termination_by structural s => s

/-- Whether the active leaf of a sequence was given up on. -/
def Sequence.isFinished : Sequence Step → Bool
  | ⟨_, _, children, cursor⟩ => Step.isFinishedAt children cursor
termination_by structural s => s

/-- Whether the active leaf of a loop was given up on. -/
def LoopStep.isFinished : LoopStep Step → Bool
  | ⟨_, _, _, body⟩ => body.isFinished
termination_by structural l => l

/-- Whether the active leaf under the step at a place was given up on. -/
def Step.isFinishedAt : List Step → Nat → Bool
  | [], _ => false
  | s :: _, 0 => s.isFinished
  | _ :: rest, n + 1 => Step.isFinishedAt rest n
termination_by structural l => l

end

mutual

/-- The kinds of the steps below a step along the cursors. -/
def Step.pathBelow : Step → List StepKind
  | .sequence s => s.activePath
  | .loop l => l.activePath
  | .fire _ | .mutation _ | .wait _ | .vanish _ => []
termination_by structural s => s

/-- The kinds of the steps along the cursors, the outermost first. -/
def Sequence.activePath : Sequence Step → List StepKind
  | ⟨_, _, children, cursor⟩ => Step.pathAt children cursor
termination_by structural s => s

/-- The kinds of the steps along the cursors of the body. -/
def LoopStep.activePath : LoopStep Step → List StepKind
  | ⟨_, _, _, body⟩ => body.activePath
termination_by structural l => l

/-- The kinds from the step at a place downward. -/
def Step.pathAt : List Step → Nat → List StepKind
  | [], _ => []
  | s :: _, 0 => s.kind :: s.pathBelow
  | _ :: rest, n + 1 => Step.pathAt rest n
termination_by structural l => l

end

mutual

/-- How many sequences are nested in a step. -/
def Step.height : Step → Nat
  | .sequence s => s.height
  | .loop l => l.height
  | .fire _ | .mutation _ | .wait _ | .vanish _ => 0
termination_by structural s => s

/-- How many sequences are nested in a sequence, itself included. -/
def Sequence.height : Sequence Step → Nat
  | ⟨_, _, children, _⟩ => Step.heightOfAll children + 1
termination_by structural s => s

/-- How many sequences are nested in a loop. -/
def LoopStep.height : LoopStep Step → Nat
  | ⟨_, _, _, body⟩ => body.height
termination_by structural l => l

/-- The greatest height among several steps. -/
def Step.heightOfAll : List Step → Nat
  | [] => 0
  | s :: rest => max s.height (Step.heightOfAll rest)
termination_by structural l => l

end

/-! ## Changes from outside -/

mutual

/-- The parameters around a step have changed: the nearest derived scopes have to be evaluated
again. What lies behind them learns of it when they are. -/
def Step.expire : Step → Step
  | .sequence s => .sequence s.expire
  | .loop l => .loop l.expire
  | .fire f => .fire { f with scope := f.scope.expire }
  | .mutation m => .mutation m
  | .wait w => .wait w
  | .vanish triggered => .vanish triggered
termination_by structural s => s

/-- The parameters around a sequence have changed. -/
def Sequence.expire : Sequence Step → Sequence Step
  | ⟨label, .shared, children, cursor⟩ => ⟨label, .shared, Step.expireAll children, cursor⟩
  | ⟨label, .derived args values _, children, cursor⟩ =>
    ⟨label, .derived args values false, children, cursor⟩
termination_by structural s => s

/-- The parameters around a loop have changed. -/
def LoopStep.expire : LoopStep Step → LoopStep Step
  | ⟨times, target, completed, body⟩ => ⟨times, target, completed, body.expire⟩
termination_by structural l => l

/-- The parameters around several steps have changed. -/
def Step.expireAll : List Step → List Step
  | [] => []
  | s :: rest => s.expire :: Step.expireAll rest
termination_by structural l => l

end

/-- The fire before it was made. -/
def FireStep.reset (f : FireStep) : FireStep := { f with scope := f.scope.expire, fired := false }

/-- The mutation before it was entered. -/
def MutationStep.reset (m : MutationStep) : MutationStep :=
  { m with glide := none, elapsed := 0, finished := false }

/-- The pause before it was entered. -/
def WaitStep.reset (w : WaitStep) : WaitStep :=
  { w with duration := none, elapsed := 0, finished := false }

mutual

/-- A step as it was before it was entered, but for derived parameters, which no longer hold. -/
def Step.reset : Step → Step
  | .sequence s => .sequence s.reset
  | .loop l => .loop l.reset
  | .fire f => .fire f.reset
  | .mutation m => .mutation m.reset
  | .wait w => .wait w.reset
  | .vanish _ => .vanish false
termination_by structural s => s

/-- A sequence with its cursor at the first step and every step reset. -/
def Sequence.reset : Sequence Step → Sequence Step
  | ⟨label, scope, children, _⟩ => ⟨label, scope.expire, Step.resetAll children, 0⟩
termination_by structural s => s

/-- A loop before it was entered. -/
def LoopStep.reset : LoopStep Step → LoopStep Step
  | ⟨times, _, _, body⟩ => ⟨times, none, 0, body.reset⟩
termination_by structural l => l

/-- Several steps reset. -/
def Step.resetAll : List Step → List Step
  | [] => []
  | s :: rest => s.reset :: Step.resetAll rest
termination_by structural l => l

end

mutual

/-- Gives up on the active leaf under a step. -/
def Step.finish : Step → Step
  | .sequence s => .sequence s.finish
  | .loop l => .loop l.finish
  | .mutation m => .mutation { m with finished := true }
  | .wait w => .wait { w with finished := true }
  | .fire f => .fire f
  | .vanish triggered => .vanish triggered
termination_by structural s => s

/-- Gives up on the active leaf of a sequence. -/
def Sequence.finish : Sequence Step → Sequence Step
  | ⟨label, scope, children, cursor⟩ => ⟨label, scope, Step.finishAt children cursor, cursor⟩
termination_by structural s => s

/-- Gives up on the active leaf of a loop. -/
def LoopStep.finish : LoopStep Step → LoopStep Step
  | ⟨times, target, completed, body⟩ => ⟨times, target, completed, body.finish⟩
termination_by structural l => l

/-- Gives up on the active leaf under the step at a place. -/
def Step.finishAt : List Step → Nat → List Step
  | [], _ => []
  | s :: rest, 0 => s.finish :: rest
  | s :: rest, n + 1 => s :: Step.finishAt rest n
termination_by structural l => l

end

end Barrage
