import Barrage.Scalar.Basic

/-!
# Decimal numerals

A numeral is a run of digits scaled by a power of ten, with a sign.

* `Decimal.magnitude`: the magnitude of a binary format nearest to a numeral.
* `Decimal.toScalar`: the scalar nearest to a numeral, rounded once.
* `Decimal.toScalarTwice?`: rounded to sixty-four bits first; `none` past the range of that format.
* `readDigits`: the value of a run of decimal digits.
-/

namespace Barrage

/-- The value `digits * 10 ^ exponent`, with a sign. -/
structure Decimal where
  negative : Bool
  digits : Nat
  exponent : Int
deriving DecidableEq, Repr

/-- The value of a decimal digit. -/
def digitValue (c : Char) : Nat := c.toNat - '0'.toNat

/-- The number that a run of decimal digits spells. -/
def readDigits (cs : List Char) : Nat :=
  cs.foldl (fun n c => 10 * n + digitValue c) 0

namespace Decimal

/-- No format in use reaches `10 ^ reach` or tells a value below `10 ^ -reach` from zero. -/
def reach : Int := 400

/-- One past the exponent of the leading digit: the numeral lies below `10 ^ order`. -/
def order (d : Decimal) : Int := (Nat.toDigits 10 d.digits).length + d.exponent

/-- The magnitude of a format nearest to the numeral, its sign left out; `none` past the range. -/
def magnitude (f : Format) (d : Decimal) : Option Magnitude :=
  if d.digits = 0 ∨ d.order < -reach then some ⟨0, f.minExponent⟩
  else if reach < d.order then none
  else f.nearest (d.digits * 10 ^ d.exponent.toNat) (10 ^ (-d.exponent).toNat)

/-- The scalar nearest to the numeral; infinity past the range. -/
def toScalar (d : Decimal) : Scalar :=
  Scalar.ofMagnitude d.negative (d.magnitude .single)

/-- The scalar nearest to the sixty-four bit number nearest to the numeral; `none` if that number
is past its range. -/
def toScalarTwice? (d : Decimal) : Option Scalar :=
  (d.magnitude .double).map fun m =>
    let (num, den) := m.ratio
    Scalar.ofRatio d.negative num den

end Decimal

end Barrage
