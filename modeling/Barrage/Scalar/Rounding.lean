/-!
# Rounding a ratio to a binary format

* `Format`: the significand width and the exponent range of an interchange format; `Format.single`
  and `Format.double` are the two in use.
* `Magnitude`: a non-negative value `mantissa * 2 ^ exponent`.
* `roundHalfEven`: a quotient rounded to the nearest natural number, a half to the even one.
* `Format.nearest`: the magnitude of a format that is closest to a ratio, `none` past the largest.
-/

namespace Barrage

/-- A power of whole numbers is the one of the core library, whatever else a module imports. -/
@[default_instance 20000]
instance (priority := 20000) corePow {α : Type} [NatPow α] : Pow α Nat := instPowNat

/-- A binary format: how many bits a significand has, and the least and greatest exponents of its
last bit. -/
structure Format where
  precision : Nat
  minExponent : Int
  maxExponent : Int
deriving DecidableEq, Repr

namespace Format

/-- Thirty-two bits: `24` bits of significand. -/
def single : Format := ⟨24, -149, 104⟩

/-- Sixty-four bits: `53` bits of significand. -/
def double : Format := ⟨53, -1074, 971⟩

end Format

/-- The value `mantissa * 2 ^ exponent`. -/
structure Magnitude where
  mantissa : Nat
  exponent : Int
deriving DecidableEq, Repr

namespace Magnitude

/-- The numerator and denominator of a magnitude as natural numbers. -/
def ratio (m : Magnitude) : Nat × Nat :=
  (m.mantissa * 2 ^ m.exponent.toNat, 2 ^ (-m.exponent).toNat)

/-- The magnitude counted in units of `2 ^ exponent`, for an exponent not above its own. -/
def inUnitsOf (m : Magnitude) (exponent : Int) : Nat :=
  m.mantissa * 2 ^ (m.exponent - exponent).toNat

end Magnitude

/-- `num / den` rounded to the nearest natural number; a half goes to the even neighbour. -/
def roundHalfEven (num den : Nat) : Nat :=
  let quotient := num / den
  let remainder := num % den
  if 2 * remainder < den then quotient
  else if den < 2 * remainder then quotient + 1
  else quotient + quotient % 2

/-- A half goes to an even number. -/
theorem roundHalfEven_tie (num den : Nat) (h : 2 * (num % den) = den) :
    roundHalfEven num den % 2 = 0 := by
  simp only [roundHalfEven]
  rw [if_neg (by omega), if_neg (by omega)]
  omega

/-- The rounded quotient is one of the two neighbours of the exact one. -/
theorem roundHalfEven_bounds (num den : Nat) :
    num / den ≤ roundHalfEven num den ∧ roundHalfEven num den ≤ num / den + 1 := by
  simp only [roundHalfEven]
  split
  · omega
  · split <;> omega

namespace Format

/-- The ratio `num / den` counted in units of `2 ^ exponent`, again as a ratio. -/
def inUnits (num den : Nat) (exponent : Int) : Nat × Nat :=
  (num * 2 ^ (-exponent).toNat, den * 2 ^ exponent.toNat)

/-- The exponent of the last bit that a significand of `num / den` keeps. -/
def lastBit (f : Format) (num den : Nat) : Int :=
  let low : Int := (num.log2 : Int) - den.log2 - f.precision
  let (n, d) := inUnits num den low
  max f.minExponent (if 2 ^ f.precision ≤ n / d then low + 1 else low)

/-- The magnitude of the format nearest to `num / den`, a tie to the even mantissa; `none` when that
lies past the largest. -/
def nearest (f : Format) (num den : Nat) : Option Magnitude :=
  if num = 0 then some ⟨0, f.minExponent⟩
  else
    let e := f.lastBit num den
    let (n, d) := inUnits num den e
    let m := roundHalfEven n d
    let (m, e) := if m = 2 ^ f.precision then (2 ^ (f.precision - 1), e + 1) else (m, e)
    if f.maxExponent < e then none else some ⟨m, e⟩

end Format

end Barrage
