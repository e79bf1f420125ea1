import Barrage.Angle.Arctan

/-!
# Headings and points

A heading is in degrees, clockwise from straight up; the vertical axis points down.

* `normalizeDegrees`: a heading wrapped into one turn.
* `shortestArc`: the signed turn from one heading to another, at most half a turn.
* `Point.headingTo`: the heading from one point towards another, zero if they coincide.
-/

namespace Barrage

/-- A position; the vertical axis points down. -/
structure Point where
  x : Scalar
  y : Scalar
deriving DecidableEq, Repr

/-- One turn. -/
def fullTurn : Scalar := 360

/-- A heading wrapped into the range from zero to one turn. -/
def normalizeDegrees (heading : Scalar) : Scalar :=
  let wrapped := heading.modulo fullTurn
  if wrapped ≥ fullTurn then 0 else wrapped

/-- The signed turn that leads from one heading to another the shorter way round. -/
def shortestArc (start goal : Scalar) : Scalar :=
  let turn := (goal - start).modulo fullTurn
  if turn > 180 then turn - fullTurn else turn

/-- Degrees in one radian, to the nearest scalar. -/
def degreesPerRadian : Scalar := Scalar.ofBits 0x42652ee1

namespace Point

/-- The origin. -/
def origin : Point := ⟨0, 0⟩

/-- The point moved by another. -/
def add (p q : Point) : Point := ⟨p.x + q.x, p.y + q.y⟩

/-- The heading from one point towards another; zero from a point to itself. -/
def headingTo (source target : Point) : Scalar :=
  let dx := target.x - source.x
  let dy := target.y - source.y
  if dx == 0 && dy == 0 then 0
  else normalizeDegrees (Scalar.angle dx (-dy) * degreesPerRadian)

end Point

end Barrage
