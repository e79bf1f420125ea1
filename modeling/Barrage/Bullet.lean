import Barrage.Angle.Basic
import Barrage.Pattern.Node

/-!
# Bullets

* `Bullet`: what a pattern reads and steers, with whatever else its host keeps of it.
* `BulletFactory`: how a host makes the bullets that a pattern asks for. It may give them another
  heading or speed than was asked; what it gave counts from then on.
-/

namespace Barrage

/-- The identity of a bullet. -/
structure BulletId where
  number : UInt64
deriving DecidableEq, Repr, Inhabited

/-- The text of an identity. -/
def BulletId.text (id : BulletId) : String := "#" ++ toString id.number.toNat

/-- A bullet; `payload` is what its host keeps of it. -/
structure Bullet (α : Type) where
  id : BulletId
  position : Point
  direction : Scalar
  speed : Scalar
  payload : α
deriving DecidableEq

/-- Hosts that make bullets: from a definition, the bullet that fires, a heading and a speed. -/
class BulletFactory (φ α : Type) where
  create : BulletDef Node → Bullet α → Scalar → Scalar → φ → Bullet α × φ

end Barrage
