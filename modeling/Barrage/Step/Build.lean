import Barrage.Config.Basic
import Barrage.Step.Basic
import Barrage.Step.Error

/-!
# Building steps

References to actions and fires are followed while building, so a label that names nothing is an
error before anything runs. The patterns of fired bullets are built when they are fired.

* `Builder.stepBy`: the step of a node, given how actions are entered.
* `Builder.enter`: the sequence of an action, by recursion on how much deeper actions may nest.
* `Builder.node`, `Builder.action`, `Builder.bullet`: the three ways in.
-/

namespace Barrage

/-- A document and the configuration its patterns run under. -/
structure Builder where
  document : Document
  config : Config

namespace Builder

/-- The step of a fire: a referenced bullet definition is looked up now, its arguments wait. -/
def fireStep (b : Builder) (fire : Fire Node) (scope : Scope) : Except StepError FireStep :=
  match fire.bullet with
  | .inline definition => .ok ⟨fire, definition, none, scope, false⟩
  | .reference r =>
    match b.document.resolveBullet r.label with
    | .ok definition => .ok ⟨fire, definition, some r.args, scope, false⟩
    | .error e => .error (.document e)

/-- The sequence of a labelled action, entered through a reference. -/
def follow (b : Builder) (enter : Action Node → Scope → Except StepError (Sequence Step))
    (r : Reference) : Except StepError (Sequence Step) :=
  match b.document.resolveAction r.label with
  | .ok action => enter action (.ofArgs r.args)
  | .error e => .error (.document e)

/-- The step of a node, given how the actions in it are entered. -/
def stepBy (b : Builder) (enter : Action Node → Scope → Except StepError (Sequence Step)) :
    Node → Except StepError Step
  | .action a => .sequence <$> enter a .shared
  | .actionRef r => .sequence <$> b.follow enter r
  | .loop times (.action a) => (fun s => .loop ⟨times, none, 0, s⟩) <$> enter a .shared
  | .loop times (.reference r) => (fun s => .loop ⟨times, none, 0, s⟩) <$> b.follow enter r
  | .fire f => .fire <$> b.fireStep f .shared
  | .fireRef r =>
    match b.document.resolveFire r.label with
    | .ok f => .fire <$> b.fireStep f (.ofArgs r.args)
    | .error e => .error (.document e)
  | .changeDirection spec term => .ok (.mutation ⟨.direction spec, term, none, 0, false⟩)
  | .changeSpeed spec term => .ok (.mutation ⟨.speed spec, term, none, 0, false⟩)
  | .accel _ _ _ => .error (.unsupported .accel)
  | .wait duration => .ok (.wait ⟨duration, none, 0, false⟩)
  | .vanish => .ok (.vanish false)

/-- The sequence of an action met at a depth, when actions may nest `levels` deeper. -/
def enter (b : Builder) : Nat → Nat → Action Node → Scope → Except StepError (Sequence Step)
  | 0, depth, a, _ => .error (.nestingTooDeep a.label (depth + 1))
  | levels + 1, depth, a, scope => do
    let children ← a.children.mapM (b.stepBy (b.enter levels (depth + 1)))
    .ok ⟨a.label, scope, children, 0⟩

/-- How deep actions may nest. -/
def maxDepth (b : Builder) : Nat := b.config.maxNestingDepth.toNat

/-- The step of a node on its own. -/
def node (b : Builder) (n : Node) : Except StepError Step :=
  b.stepBy (b.enter b.maxDepth 0) n

/-- The sequence of an action that is entered directly. -/
def action (b : Builder) (a : Action Node) : Except StepError (Sequence Step) :=
  b.enter b.maxDepth 0 a .shared

/-- The sequence of the actions of a bullet definition. -/
def bullet (b : Builder) (d : BulletDef Node) : Except StepError (Sequence Step) := do
  let children ← d.actions.mapM (b.stepBy (b.enter (b.maxDepth - 1) 1))
  .ok ⟨d.label, .shared, children, 0⟩

end Builder

end Barrage
