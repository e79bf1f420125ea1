import Barrage.Decimal.Basic

/-!
# The shortest decimal of a scalar

The text of a scalar has the fewest digits that read back as the same scalar.

* `Span`: the values that round to a magnitude, scaled to natural numbers.
* `Span.onGrid?`: the multiple of a power of ten that lies in a span, the nearest if there are two
  and the upper one on a tie.
* `Magnitude.shortest`: the coarsest grid that has a point in the span.
* `Scalar.text`: positional, never with an exponent, no point in a whole number.
-/

namespace Barrage

/-- The values that round to `value`: between `low` and `high`, the two ends included or not. All
three are counted in units of `2 ^ exponent`. -/
structure Span where
  low : Nat
  value : Nat
  high : Nat
  exponent : Int
  closed : Bool
deriving DecidableEq, Repr

/-- The span of a magnitude of the thirty-two bit format. Below a power of two the neighbour is half
as far; a tie rounds to an even mantissa, so the ends belong to the span of an even one. -/
def Magnitude.span (m : Magnitude) : Span :=
  let gap := if m.mantissa = 2 ^ 23 then 1 else 2
  { low := 4 * m.mantissa - gap
    value := 4 * m.mantissa
    high := 4 * m.mantissa + 2
    exponent := m.exponent - 2
    closed := m.mantissa % 2 == 0 }

namespace Span

/-- Whether `num / den`, in the units of the span, lies in it. -/
def contains (s : Span) (num den : Nat) : Bool :=
  if s.closed then s.low * den ≤ num && num ≤ s.high * den
  else s.low * den < num && num < s.high * den

/-- The factors that bring a grid of `10 ^ place` and the units of the span to whole numbers: a grid
point `n` stands for `n * grid / unit` units. -/
def scales (s : Span) (place : Int) : Nat × Nat :=
  (10 ^ place.toNat * 2 ^ (-s.exponent).toNat, 10 ^ (-place).toNat * 2 ^ s.exponent.toNat)

/-- The multiple of `10 ^ place` in the span that is nearest to its value. -/
def onGrid? (s : Span) (place : Int) : Option Nat :=
  let (grid, unit) := s.scales place
  let below := s.value * unit / grid
  let hitsBelow := s.contains (below * grid) unit
  let hitsAbove := s.contains ((below + 1) * grid) unit
  if hitsBelow && hitsAbove then
    if 2 * s.value * unit < (2 * below + 1) * grid then some below else some (below + 1)
  else if hitsBelow then some below
  else if hitsAbove then some (below + 1)
  else none

/-- The point of the coarsest grid that meets the span, looking at `steps` grids from `10 ^ place`
down; past the last the value itself is taken, which is then a multiple of the grid. -/
def coarsest (s : Span) : Nat → Int → Decimal
  | 0, place =>
    let (grid, unit) := s.scales place
    ⟨false, s.value * unit / grid, place⟩
  | steps + 1, place =>
    match s.onGrid? place with
    | some n => ⟨false, n, place⟩
    | none => coarsest s steps (place - 1)

end Span

namespace Magnitude

/-- A power of ten that is not below a positive magnitude of the thirty-two bit format. -/
def leadingPlace (m : Magnitude) : Int :=
  let bits : Int := (m.mantissa.log2 : Int) + 1 + m.exponent
  (if 0 ≤ bits then bits * 30103 / 100000 else bits * 30102 / 100000) + 1

/-- The fewest digits that read back as a positive magnitude of the thirty-two bit format. -/
def shortest (m : Magnitude) : Decimal :=
  let place := m.leadingPlace
  m.span.coarsest (place - min 0 m.exponent).toNat place

end Magnitude

namespace Decimal

/-- A numeral written out in full: no exponent, no point in a whole number. -/
def positional (d : Decimal) : String :=
  let digits := Nat.toDigits 10 d.digits
  let body :=
    if 0 ≤ d.exponent then digits ++ List.replicate d.exponent.toNat '0'
    else
      let places := (-d.exponent).toNat
      let padded := List.replicate (places + 1 - digits.length) '0' ++ digits
      let whole := padded.length - places
      padded.take whole ++ '.' :: padded.drop whole
  String.ofList (if d.negative then '-' :: body else body)

end Decimal

/-- The text of a scalar: the shortest decimal that reads back as it, written out in full. -/
def Scalar.text (x : Scalar) : String :=
  match x.magnitude? with
  | some m =>
    let d := if m.mantissa = 0 then ⟨false, 0, 0⟩ else m.shortest
    Decimal.positional { d with negative := x.isNegative }
  | none =>
    if x.isNaN then "NaN" else if x.isNegative then "-inf" else "inf"

end Barrage
