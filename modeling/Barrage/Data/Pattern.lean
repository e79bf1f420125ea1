import Barrage.Angle.Basic
import Barrage.Config.Basic
import Barrage.Data.Basic
import Barrage.Diagnostic
import Barrage.Pattern.Node

/-!
# Patterns as data

Every type of a pattern is written as data and read back. Structures are records of their fields,
alternatives are tagged with their name, and an alternative that holds nothing is its name alone.

* `Formula.toData`, `Formula.ofData?`, and the like for the parts of a pattern.
* `Node.toData`, `Node.ofData?`: nodes with everything they hold. Reading is by recursion on the
  depth of the data.
* `Config.toData`, `Config.ofData?`: a field that is missing has its standard value, and nothing is
  checked.
-/

namespace Barrage

open Data

/-- The member of a list with a tag. -/
def ofTag? {α : Type} (all : List α) (tag : α → String) (d : Data) : Option α :=
  d.unitVariant?.bind fun name => all.find? fun a => tag a == name

namespace BinaryOp

/-- Every operator. -/
def all : List BinaryOp := [add, sub, mul, div, rem]

/-- The tag of an operator. -/
def tag : BinaryOp → String
  | add => "Add"
  | sub => "Sub"
  | mul => "Mul"
  | div => "Div"
  | rem => "Rem"

/-- The operator that data names. -/
def ofData? (d : Data) : Option BinaryOp := ofTag? all tag d

end BinaryOp

namespace NodeKind

/-- The tag of a node kind. -/
def tag : NodeKind → String
  | action => "Action"
  | actionRef => "ActionRef"
  | loop => "Repeat"
  | fire => "Fire"
  | fireRef => "FireRef"
  | changeDirection => "ChangeDirection"
  | changeSpeed => "ChangeSpeed"
  | accel => "Accel"
  | wait => "Wait"
  | vanish => "Vanish"

/-- A node kind as data. -/
def toData (k : NodeKind) : Data := .text k.tag

/-- The node kind that data names. -/
def ofData? (d : Data) : Option NodeKind := ofTag? all tag d

end NodeKind

namespace DefinitionKind

/-- The tag of a definition kind. -/
def tag : DefinitionKind → String
  | action => "Action"
  | fire => "Fire"
  | bullet => "Bullet"

/-- A definition kind as data. -/
def toData (k : DefinitionKind) : Data := .text k.tag

/-- The definition kind that data names. -/
def ofData? (d : Data) : Option DefinitionKind := ofTag? all tag d

end DefinitionKind

namespace Severity

/-- Every severity. -/
def all : List Severity := [authoring, evaluation]

/-- The tag of a severity. -/
def tag : Severity → String
  | authoring => "Authoring"
  | evaluation => "Evaluation"

/-- A severity as data. -/
def toData (s : Severity) : Data := .text s.tag

/-- The severity that data names. -/
def ofData? (d : Data) : Option Severity := ofTag? all tag d

end Severity

namespace Formula

/-- A formula as data. -/
def toData : Formula → Data
  | number value => tagged "Number" (ofScalar value)
  | param index => tagged "Param" (ofWord index)
  | rank => .text "Rank"
  | rand => .text "Rand"
  | neg inner => tagged "Neg" inner.toData
  | binary op lhs rhs =>
    tagged "Binary" (.record
      [("op", .text op.tag), ("lhs", lhs.toData), ("rhs", rhs.toData)])

/-- The formula that data holds, nested at most `levels` deep. -/
def ofDataWithin : Nat → Data → Option Formula
  | 0, d => leaf? d
  | levels + 1, d =>
    match d.variant? with
    | some ("Neg", some d) => (ofDataWithin levels d).map neg
    | some ("Binary", some d) =>
      match d.recordFields? ["op", "lhs", "rhs"] with
      | some [op, lhs, rhs] => do
        let op ← required BinaryOp.ofData? op
        let lhs ← required (ofDataWithin levels) lhs
        let rhs ← required (ofDataWithin levels) rhs
        some (binary op lhs rhs)
      | _ => none
    | _ => leaf? d
where
  /-- A formula that holds no other. -/
  leaf? (d : Data) : Option Formula :=
    match d.variant? with
    | some ("Number", some d) => d.toScalar?.map number
    | some ("Param", some d) => d.toWord?.map param
    | _ =>
      match d.unitVariant? with
      | some "Rank" => some rank
      | some "Rand" => some rand
      | _ => none

/-- The formula that data holds. -/
def ofData? (d : Data) : Option Formula := ofDataWithin d.depth d

end Formula

namespace DirectionKind

/-- The direction kind that data names. -/
def ofData? (d : Data) : Option DirectionKind := ofTag? all name d

end DirectionKind

namespace SpeedKind

/-- The speed kind that data names. -/
def ofData? (d : Data) : Option SpeedKind := ofTag? all name d

end SpeedKind

namespace DirectionSpec

/-- A direction as data. -/
def toData (s : DirectionSpec) : Data :=
  .record [("kind", .text s.kind.name), ("value", s.value.toData)]

/-- The direction that data holds. -/
def ofData? (d : Data) : Option DirectionSpec :=
  match d.fields? ["kind", "value"] with
  | some [kind, value] => do
    some ⟨← required DirectionKind.ofData? kind, ← required Formula.ofData? value⟩
  | _ => none

end DirectionSpec

namespace SpeedSpec

/-- A speed as data. -/
def toData (s : SpeedSpec) : Data :=
  .record [("kind", .text s.kind.name), ("value", s.value.toData)]

/-- The speed that data holds. -/
def ofData? (d : Data) : Option SpeedSpec :=
  match d.fields? ["kind", "value"] with
  | some [kind, value] => do
    some ⟨← required SpeedKind.ofData? kind, ← required Formula.ofData? value⟩
  | _ => none

end SpeedSpec

namespace Reference

/-- A reference as data. -/
def toData (r : Reference) : Data :=
  .record [("label", .text r.label), ("args", .list (r.args.map Formula.toData))]

/-- The reference that data holds. -/
def ofData? (d : Data) : Option Reference :=
  match d.fields? ["label", "args"] with
  | some [label, args] => do
    some ⟨← required toText? label, ← required (toList? Formula.ofData?) args⟩
  | _ => none

end Reference

mutual

/-- A node as data. -/
def Node.toData : Node → Data
  | .action a => tagged "Action" a.toData
  | .actionRef r => tagged "ActionRef" r.toData
  | .loop times body =>
    tagged "Repeat" (.record [("times", times.toData), ("body", body.toData)])
  | .fire f => tagged "Fire" f.toData
  | .fireRef r => tagged "FireRef" r.toData
  | .changeDirection direction term =>
    tagged "ChangeDirection" (.record [("direction", direction.toData), ("term", term.toData)])
  | .changeSpeed speed term =>
    tagged "ChangeSpeed" (.record [("speed", speed.toData), ("term", term.toData)])
  | .accel horizontal vertical term =>
    tagged "Accel" (.record
      [("horizontal", ofOption SpeedSpec.toData horizontal),
       ("vertical", ofOption SpeedSpec.toData vertical), ("term", term.toData)])
  | .wait duration => tagged "Wait" (.record [("duration", duration.toData)])
  | .vanish => .text "Vanish"
termination_by structural n => n

/-- An action as data. -/
def Action.toData : Action Node → Data
  | ⟨label, children⟩ =>
    .record [("label", ofOption .text label), ("children", .list (Node.toDataAll children))]
termination_by structural a => a

/-- The body of a loop as data. -/
def LoopBody.toData : LoopBody Node → Data
  | .action a => tagged "Action" a.toData
  | .reference r => tagged "Reference" r.toData
termination_by structural b => b

/-- A fire as data. -/
def Fire.toData : Fire Node → Data
  | ⟨label, direction, speed, bullet⟩ =>
    .record
      [("label", ofOption .text label), ("direction", ofOption DirectionSpec.toData direction),
       ("speed", ofOption SpeedSpec.toData speed), ("bullet", bullet.toData)]
termination_by structural f => f

/-- The source of a bullet as data. -/
def BulletSource.toData : BulletSource Node → Data
  | .inline definition => tagged "Inline" definition.toData
  | .reference r => tagged "Reference" r.toData
termination_by structural s => s

/-- A bullet definition as data. -/
def BulletDef.toData : BulletDef Node → Data
  | ⟨label, direction, speed, actions⟩ =>
    .record
      [("label", ofOption .text label), ("direction", ofOption DirectionSpec.toData direction),
       ("speed", ofOption SpeedSpec.toData speed), ("actions", .list (Node.toDataAll actions))]
termination_by structural d => d

/-- Several nodes as data. -/
def Node.toDataAll : List Node → List Data
  | [] => []
  | n :: rest => n.toData :: Node.toDataAll rest
termination_by structural l => l

end

/-! ## Reading nodes: each part, given how to read a node -/

/-- The action that data holds. -/
def Action.ofDataBy (node : Data → Option Node) (d : Data) : Option (Action Node) :=
  match d.fields? ["label", "children"] with
  | some [label, children] => do
    some ⟨← optional toText? label, ← required (toList? node) children⟩
  | _ => none

/-- The body of a loop that data holds. -/
def LoopBody.ofDataBy (node : Data → Option Node) (d : Data) : Option (LoopBody Node) :=
  match d.variant? with
  | some ("Action", some d) => (Action.ofDataBy node d).map .action
  | some ("Reference", some d) => (Reference.ofData? d).map .reference
  | _ => none

/-- The bullet definition that data holds. -/
def BulletDef.ofDataBy (node : Data → Option Node) (d : Data) : Option (BulletDef Node) :=
  match d.fields? ["label", "direction", "speed", "actions"] with
  | some [label, direction, speed, actions] => do
    some ⟨← optional toText? label, ← optional DirectionSpec.ofData? direction,
      ← optional SpeedSpec.ofData? speed, ← required (toList? node) actions⟩
  | _ => none

/-- The source of a bullet that data holds. -/
def BulletSource.ofDataBy (node : Data → Option Node) (d : Data) : Option (BulletSource Node) :=
  match d.variant? with
  | some ("Inline", some d) => (BulletDef.ofDataBy node d).map .inline
  | some ("Reference", some d) => (Reference.ofData? d).map .reference
  | _ => none

/-- The fire that data holds. -/
def Fire.ofDataBy (node : Data → Option Node) (d : Data) : Option (Fire Node) :=
  match d.fields? ["label", "direction", "speed", "bullet"] with
  | some [label, direction, speed, bullet] => do
    some ⟨← optional toText? label, ← optional DirectionSpec.ofData? direction,
      ← optional SpeedSpec.ofData? speed, ← required (BulletSource.ofDataBy node) bullet⟩
  | _ => none

/-- The loop that data holds. -/
def Node.loopOfDataBy (node : Data → Option Node) (d : Data) : Option Node :=
  match d.fields? ["times", "body"] with
  | some [times, body] => do
    some (.loop (← required Formula.ofData? times) (← required (LoopBody.ofDataBy node) body))
  | _ => none

/-- The change of heading that data holds. -/
def Node.changeDirectionOfData? (d : Data) : Option Node :=
  match d.fields? ["direction", "term"] with
  | some [direction, term] => do
    some (.changeDirection (← required DirectionSpec.ofData? direction)
      (← required Formula.ofData? term))
  | _ => none

/-- The change of speed that data holds. -/
def Node.changeSpeedOfData? (d : Data) : Option Node :=
  match d.fields? ["speed", "term"] with
  | some [speed, term] => do
    some (.changeSpeed (← required SpeedSpec.ofData? speed) (← required Formula.ofData? term))
  | _ => none

/-- The acceleration that data holds. -/
def Node.accelOfData? (d : Data) : Option Node :=
  match d.fields? ["horizontal", "vertical", "term"] with
  | some [horizontal, vertical, term] => do
    some (.accel (← optional SpeedSpec.ofData? horizontal) (← optional SpeedSpec.ofData? vertical)
      (← required Formula.ofData? term))
  | _ => none

/-- The wait that data holds. -/
def Node.waitOfData? (d : Data) : Option Node :=
  match d.fields? ["duration"] with
  | some [duration] => (required Formula.ofData? duration).map .wait
  | _ => none

/-- The node that data holds, nested at most `levels` deep. -/
def Node.ofDataWithin : Nat → Data → Option Node
  | 0, d => if d.unitVariant? = some "Vanish" then some .vanish else none
  | levels + 1, d =>
    match d.variant? with
    | some ("Action", some d) => (Action.ofDataBy (ofDataWithin levels) d).map .action
    | some ("ActionRef", some d) => (Reference.ofData? d).map .actionRef
    | some ("Repeat", some d) => loopOfDataBy (ofDataWithin levels) d
    | some ("Fire", some d) => (Fire.ofDataBy (ofDataWithin levels) d).map .fire
    | some ("FireRef", some d) => (Reference.ofData? d).map .fireRef
    | some ("ChangeDirection", some d) => changeDirectionOfData? d
    | some ("ChangeSpeed", some d) => changeSpeedOfData? d
    | some ("Accel", some d) => accelOfData? d
    | some ("Wait", some d) => waitOfData? d
    | _ => if d.unitVariant? = some "Vanish" then some .vanish else none

/-- The node that data holds. -/
def Node.ofData? (d : Data) : Option Node := Node.ofDataWithin d.depth d

/-- The action that data holds. -/
def Action.ofData? (d : Data) : Option (Action Node) := Action.ofDataBy Node.ofData? d

/-- The fire that data holds. -/
def Fire.ofData? (d : Data) : Option (Fire Node) := Fire.ofDataBy Node.ofData? d

/-- The bullet definition that data holds. -/
def BulletDef.ofData? (d : Data) : Option (BulletDef Node) := BulletDef.ofDataBy Node.ofData? d

namespace Point

/-- A point as data. -/
def toData (p : Point) : Data := .record [("x", ofScalar p.x), ("y", ofScalar p.y)]

/-- The point that data holds. -/
def ofData? (d : Data) : Option Point :=
  match d.fields? ["x", "y"] with
  | some [x, y] => do some ⟨← required toScalar? x, ← required toScalar? y⟩
  | _ => none

end Point

namespace Config

/-- A configuration as data. -/
def toData (c : Config) : Data :=
  .record
    [("max_iterations_per_tick", ofWord c.maxIterationsPerTick),
     ("max_nesting_depth", ofWord c.maxNestingDepth), ("default_speed", ofScalar c.defaultSpeed)]

/-- A part that has a standard value if it is missing. -/
def partOr {α : Type} (standard : α) (read : Data → Option α) : Option Data → Option α
  | none => some standard
  | some d => read d

/-- The parts of a configuration; a list may end early. -/
def parts? : Data → Option (List (Option Data))
  | .list items =>
    if items.length ≤ 3 then some (items.map some ++ List.replicate (3 - items.length) none)
    else none
  | d => d.fields? ["max_iterations_per_tick", "max_nesting_depth", "default_speed"]

/-- The configuration that data holds. -/
def ofData? (d : Data) : Option Config :=
  match parts? d with
  | some [iterations, nesting, speed] => do
    some ⟨← partOr standard.maxIterationsPerTick toWord? iterations,
      ← partOr standard.maxNestingDepth toWord? nesting,
      ← partOr standard.defaultSpeed toScalar? speed⟩
  | _ => none

end Config

end Barrage
