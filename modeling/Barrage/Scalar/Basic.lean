import Barrage.Scalar.Rounding

/-!
# Scalars

Headings, speeds, durations, coordinates and formula values are thirty-two bit floating-point
numbers, rounded after each operation.

* `Scalar.magnitude?` and `Scalar.ofMagnitude`: the exact value behind the bits, and back.
* `Scalar.ofRatio`, `Scalar.ofInt`, `Scalar.ofDoubleBits`: the scalar nearest to a ratio, to a whole
  number, to a number of twice the width.
* `Scalar.remainder`: the exact remainder, with the sign of the dividend; `Scalar.modulo` moves it
  into the non-negative range.
* `Scalar.atLeastZero` and `Scalar.atMostOne`: clamps that give the bound for an undefined value.
* `Scalar.count`: how often a repeat with this count runs.
-/

namespace Barrage

/-- A heading, speed, duration, coordinate or formula value. -/
abbrev Scalar := Float32

namespace Scalar

/-- The value with the given bits. -/
def ofBits (bits : UInt32) : Scalar := Float32.ofBits bits

/-- Whether the sign bit is set. -/
def isNegative (x : Scalar) : Bool := x.toBits >>> 31 == 1

/-- Positive infinity. -/
def infinity : Scalar := ofBits 0x7f800000

/-- The value that no comparison holds of. -/
def undefined : Scalar := ofBits 0x7fc00000

/-- The exact magnitude of a finite scalar; `none` for an infinity or an undefined value. -/
def magnitude? (x : Scalar) : Option Magnitude :=
  let exponent : Nat := (x.toBits.toNat / 2 ^ 23) % 2 ^ 8
  let fraction : Nat := x.toBits.toNat % 2 ^ 23
  if exponent = 255 then none
  else if exponent = 0 then some ⟨fraction, -149⟩
  else some ⟨2 ^ 23 + fraction, (exponent : Int) - 150⟩

/-- The bits of a magnitude of the thirty-two bit format, its sign left out. -/
def magnitudeBits (m : Magnitude) : Nat :=
  if m.mantissa < 2 ^ 23 then m.mantissa
  else (m.exponent + 150).toNat * 2 ^ 23 + (m.mantissa - 2 ^ 23)

/-- The scalar of a sign and a magnitude of the thirty-two bit format; no magnitude stands for
infinity. -/
def ofMagnitude (negative : Bool) (m : Option Magnitude) : Scalar :=
  let bits := match m with
    | some m => magnitudeBits m
    | none => 0x7f800000
  ofBits (UInt32.ofNat (if negative then 2 ^ 31 + bits else bits))

/-- The scalar nearest to `num / den`, ties to even. -/
def ofRatio (negative : Bool) (num den : Nat) : Scalar :=
  ofMagnitude negative (Format.single.nearest num den)

/-- The scalar nearest to a whole number, ties to even. -/
def ofInt (n : Int) : Scalar := ofRatio (decide (n < 0)) n.natAbs 1

/-- The scalar nearest to the sixty-four bit number with the given bits, ties to even. -/
def ofDoubleBits (bits : UInt64) : Scalar :=
  let negative := bits >>> 63 == 1
  let exponent : Nat := (bits.toNat / 2 ^ 52) % 2 ^ 11
  let fraction : Nat := bits.toNat % 2 ^ 52
  if exponent = 2047 then
    if fraction = 0 then ofMagnitude negative none else undefined
  else
    let m : Magnitude :=
      if exponent = 0 then ⟨fraction, -1074⟩ else ⟨2 ^ 52 + fraction, (exponent : Int) - 1075⟩
    let (num, den) := m.ratio
    ofRatio negative num den

/-- The remainder of the quotient truncated toward zero. It is exact and has the sign of the
dividend; an infinite dividend or a zero divisor leaves it undefined, and an infinite divisor leaves
the dividend as it is. -/
def remainder (x y : Scalar) : Scalar :=
  match x.magnitude?, y.magnitude? with
  | some a, some b =>
    if b.mantissa = 0 then undefined
    else
      let e := min a.exponent b.exponent
      let (num, den) := Magnitude.ratio ⟨a.inUnitsOf e % b.inUnitsOf e, e⟩
      ofRatio x.isNegative num den
  | some _, none => if y.isNaN then undefined else x
  | none, _ => undefined

/-- The remainder moved into the range from zero to the size of the divisor. -/
def modulo (x y : Scalar) : Scalar :=
  let r := x.remainder y
  if r < 0 then r + y.abs else r

/-- The larger of a scalar and zero. -/
def atLeastZero (x : Scalar) : Scalar := if x > 0 then x else 0

/-- The smaller of a scalar and one. -/
def atMostOne (x : Scalar) : Scalar := if x < 1 then x else 1

/-- The number of whole steps in a scalar: nothing below one, and at most the largest word. -/
def count (x : Scalar) : UInt32 := x.toUInt32

end Scalar

end Barrage
