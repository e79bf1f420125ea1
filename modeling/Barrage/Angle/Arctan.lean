import Barrage.Scalar.Basic

/-!
# The angle of a direction, correctly rounded

* `Arctan.series`: the partial sums of `Σ 2²ⁿ(n!)²/(2n+1)! · r²ⁿ⁺¹/(1+r²)ⁿ⁺¹ = arctan r`, whose terms
  are positive and at least halve when `r ≤ 1`.
* `Arctan.scaled`: `2 ^ bits * arctan (num / den)`, to within a few units.
* `Scalar.angle`: the angle of the direction `(x, y)` from the positive `x` axis, in radians,
  rounded once. The zeros and infinities keep the quadrant that their signs give.
-/

namespace Barrage

namespace Arctan

/-- The sum of the terms from number `n` on, at most `steps` of them; `square / total` is the factor
`r² / (1 + r²)` between them. -/
def series (square total : Nat) : Nat → Nat → Nat → Nat
  | 0, _, _ => 0
  | steps + 1, n, term =>
    term + series square total steps (n + 1)
      (term * (2 * n + 2) * square / ((2 * n + 3) * total))

/-- `2 ^ bits * arctan (num / den)` for `num ≤ den`, from below. -/
def scaled (bits num den : Nat) : Nat :=
  let square := num * num
  let total := square + den * den
  series square total (bits + 1) 0 (2 ^ bits * num * den / total)

/-- `2 ^ bits * π / 2`, from below. -/
def quarterTurn (bits : Nat) : Nat := 2 * scaled bits 1 1

/-- Bits after the point that leave many more than a scalar holds, also of the angle of a small
ratio and of its distance from that ratio. -/
def bitsFor (a b : Nat) : Nat := 160 + 3 * (max a b).log2 - 3 * (min a b).log2

/-- `2 ^ bits` times the angle of the direction `(den, num)`, both not negative. -/
def firstQuadrant (bits num den : Nat) : Nat :=
  if num ≤ den then scaled bits num den
  else quarterTurn bits - scaled bits den num

end Arctan

namespace Scalar

/-- The sizes of two scalars relative to each other; an infinity leaves nothing of a finite one. -/
def proportion (y x : Scalar) : Nat × Nat :=
  match y.magnitude?, x.magnitude? with
  | some a, some b =>
    let e := min a.exponent b.exponent
    (a.inUnitsOf e, b.inUnitsOf e)
  | none, some _ => (1, 0)
  | some _, none => (0, 1)
  | none, none => (1, 1)

/-- The angle of the direction `(x, y)` in radians, from `-π` to `π`. -/
def angle (y x : Scalar) : Scalar :=
  if y.isNaN || x.isNaN then undefined
  else
    let (num, den) := proportion y x
    let den := if num = 0 then 1 else den
    let bits := Arctan.bitsFor num den
    let a := Arctan.firstQuadrant bits num den
    let a := if x.isNegative then 2 * Arctan.quarterTurn bits - a else a
    ofRatio y.isNegative a (2 ^ bits)

end Scalar

end Barrage
