import Barrage.Formula.Basic
import Barrage.Pattern.Kind

/-!
# Pattern nodes

A pattern is a tree of operations. Actions hold nodes, bullet definitions hold nodes, and a fire may
hold a bullet definition, so those types take the type of their nodes as a parameter and `Node`
ties the knot.

* `Reference`: a labelled definition and the arguments it is entered with.
* `Action`, `LoopBody`, `BulletDef`, `BulletSource`, `Fire`: the parts of a node.
* `Node`: one operation.
* `Node.references`: the labels that a node needs, in the order they are met, also inside nested
  actions and inline bullet definitions.
-/

namespace Barrage

/-- A label and the arguments with which its definition is entered. -/
structure Reference where
  label : String
  args : List Formula
deriving DecidableEq, Inhabited

/-- A direction value and how it is to be taken. -/
structure DirectionSpec where
  kind : DirectionKind
  value : Formula
deriving DecidableEq, Inhabited

/-- A speed value and how it is to be taken. -/
structure SpeedSpec where
  kind : SpeedKind
  value : Formula
deriving DecidableEq, Inhabited

/-- An ordered list of operations. -/
structure Action (ν : Type) where
  label : Option String
  children : List ν
deriving Inhabited

/-- What a loop runs. -/
inductive LoopBody (ν : Type) where
  | action (action : Action ν)
  | reference (reference : Reference)

/-- What a bullet starts out with and what it does. -/
structure BulletDef (ν : Type) where
  label : Option String
  direction : Option DirectionSpec
  speed : Option SpeedSpec
  actions : List ν
deriving Inhabited

/-- Where a fire takes its bullet definition from. -/
inductive BulletSource (ν : Type) where
  | inline (definition : BulletDef ν)
  | reference (reference : Reference)

/-- A request for one bullet. -/
structure Fire (ν : Type) where
  label : Option String
  direction : Option DirectionSpec
  speed : Option SpeedSpec
  bullet : BulletSource ν

/-- One operation of a pattern. -/
inductive Node where
  | action (action : Action Node)
  | actionRef (reference : Reference)
  | loop (times : Formula) (body : LoopBody Node)
  | fire (fire : Fire Node)
  | fireRef (reference : Reference)
  | changeDirection (direction : DirectionSpec) (term : Formula)
  | changeSpeed (speed : SpeedSpec) (term : Formula)
  | accel (horizontal vertical : Option SpeedSpec) (term : Formula)
  | wait (duration : Formula)
  | vanish
deriving Inhabited

/-- The kind of a node. -/
def Node.kind : Node → NodeKind
  | .action _ => .action
  | .actionRef _ => .actionRef
  | .loop _ _ => .loop
  | .fire _ => .fire
  | .fireRef _ => .fireRef
  | .changeDirection _ _ => .changeDirection
  | .changeSpeed _ _ => .changeSpeed
  | .accel _ _ _ => .accel
  | .wait _ => .wait
  | .vanish => .vanish

/-- A label together with the kind of definition it has to name. -/
abbrev Mention := DefinitionKind × String

mutual

/-- The labels that a node needs, in the order they are met. -/
def Node.references : Node → List Mention
  | .action a => a.references
  | .actionRef r => [(.action, r.label)]
  | .loop _ body => body.references
  | .fire f => f.references
  | .fireRef r => [(.fire, r.label)]
  | .changeDirection _ _ | .changeSpeed _ _ | .accel _ _ _ | .wait _ | .vanish => []
termination_by structural n => n

/-- The labels that the children of an action need. -/
def Action.references : Action Node → List Mention
  | ⟨_, children⟩ => Node.referencesOfAll children
termination_by structural a => a

/-- The labels that the body of a loop needs. -/
def LoopBody.references : LoopBody Node → List Mention
  | .action a => a.references
  | .reference r => [(.action, r.label)]
termination_by structural b => b

/-- The labels that a fire needs. -/
def Fire.references : Fire Node → List Mention
  | ⟨_, _, _, bullet⟩ => bullet.references
termination_by structural f => f

/-- The labels that the source of a bullet needs. -/
def BulletSource.references : BulletSource Node → List Mention
  | .inline d => d.references
  | .reference r => [(.bullet, r.label)]
termination_by structural s => s

/-- The labels that the actions of a bullet definition need. -/
def BulletDef.references : BulletDef Node → List Mention
  | ⟨_, _, _, actions⟩ => Node.referencesOfAll actions
termination_by structural d => d

/-- The labels that several nodes need. -/
def Node.referencesOfAll : List Node → List Mention
  | [] => []
  | n :: rest => n.references ++ Node.referencesOfAll rest
termination_by structural l => l

end

end Barrage
