/-!
# Names of kinds

* `NodeKind`: the operations of a pattern, named exactly as a document spells them.
* `DirectionKind` and `SpeedKind`: how a value is to be taken; their names are read without regard
  to the case of ASCII letters.
* `DefinitionKind`: what a label can stand for.
-/

namespace Barrage

/-- The operations of a pattern. -/
inductive NodeKind where
  | action
  | actionRef
  | loop
  | fire
  | fireRef
  | changeDirection
  | changeSpeed
  | accel
  | wait
  | vanish
deriving DecidableEq, Repr, Inhabited

namespace NodeKind

/-- Every kind, in the order of the schema. -/
def all : List NodeKind :=
  [action, actionRef, loop, fire, fireRef, changeDirection, changeSpeed, accel, wait, vanish]

/-- The name a document uses. -/
def name : NodeKind → String
  | action => "action"
  | actionRef => "actionRef"
  | loop => "repeat"
  | fire => "fire"
  | fireRef => "fireRef"
  | changeDirection => "changeDirection"
  | changeSpeed => "changeSpeed"
  | accel => "accel"
  | wait => "wait"
  | vanish => "vanish"

/-- The kind with a name. -/
def ofName? (s : String) : Option NodeKind := all.find? (fun k => k.name == s)

end NodeKind

/-- How a direction value is to be taken. -/
inductive DirectionKind where
  /-- Offset from the heading towards the target. -/
  | aim
  /-- Heading as given. -/
  | absolute
  /-- Offset from the owner's heading. -/
  | relative
  /-- Offset from the last fired heading, or a rate per unit of time. -/
  | sequence
deriving DecidableEq, Repr, Inhabited

/-- A name with its ASCII letters in lower case. -/
def lowerName (s : String) : String := String.ofList (s.toList.map Char.toLower)

namespace DirectionKind

/-- Every kind, the default first. -/
def all : List DirectionKind := [aim, absolute, relative, sequence]

/-- The kind of a direction that names none. -/
def standard : DirectionKind := aim

/-- The name of a kind. -/
def name : DirectionKind → String
  | aim => "aim"
  | absolute => "absolute"
  | relative => "relative"
  | sequence => "sequence"

/-- The kind with exactly this name. -/
def ofExactName? (s : String) : Option DirectionKind := all.find? (fun k => k.name == s)

/-- The kind with a name in any case. -/
def ofName? (s : String) : Option DirectionKind := ofExactName? (lowerName s)

end DirectionKind

/-- How a speed value is to be taken. -/
inductive SpeedKind where
  /-- Speed as given. -/
  | absolute
  /-- Offset from the owner's speed. -/
  | relative
  /-- Offset from the last fired speed, or a rate per unit of time. -/
  | sequence
deriving DecidableEq, Repr, Inhabited

namespace SpeedKind

/-- Every kind, the default first. -/
def all : List SpeedKind := [absolute, relative, sequence]

/-- The kind of a speed that names none. -/
def standard : SpeedKind := absolute

/-- The name of a kind. -/
def name : SpeedKind → String
  | absolute => "absolute"
  | relative => "relative"
  | sequence => "sequence"

/-- The kind with exactly this name. -/
def ofExactName? (s : String) : Option SpeedKind := all.find? (fun k => k.name == s)

/-- The kind with a name in any case. -/
def ofName? (s : String) : Option SpeedKind := ofExactName? (lowerName s)

end SpeedKind

/-- What a label can stand for. -/
inductive DefinitionKind where
  | action
  | fire
  | bullet
deriving DecidableEq, Repr, Inhabited

namespace DefinitionKind

/-- Every kind. -/
def all : List DefinitionKind := [action, fire, bullet]

/-- The name of a kind. -/
def name : DefinitionKind → String
  | action => "action"
  | fire => "fire"
  | bullet => "bullet"

/-- The kind with a name. -/
def ofName? (s : String) : Option DefinitionKind := all.find? (fun k => k.name == s)

end DefinitionKind

end Barrage
