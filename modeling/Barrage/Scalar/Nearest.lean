import Mathlib.Algebra.Order.Field.Power
import Mathlib.Data.Rat.Cast.Order
import Mathlib.Tactic.FieldSimp
import Mathlib.Tactic.Linarith
import Mathlib.Tactic.Ring
import Barrage.Scalar.Rounding

/-!
# Which magnitude is nearest

* `inUnits_ratio`, `zpow_eq_ratio`: the ratios of whole numbers that stand for a value in units of a
  power of two.
* `roundHalfEven_eq`: a quotient rounds to a number from which it is at most a half away.
* `Format.lastBit_spec`, `Format.lastBit_eq`: the last bit that is kept is where the mantissa has all
  its bits, unless that is below the least exponent.
* `Format.nearest_eq`: what a ratio is rounded to.
-/

namespace Barrage

/-! ## Ratios -/

theorem cast_pow_eq_zpow (b k : Nat) : ((b ^ k : Nat) : ℚ) = (b : ℚ) ^ (k : ℤ) := by
  rw [zpow_natCast]
  exact_mod_cast rfl

/-- A power with any exponent is a ratio of whole numbers. -/
theorem zpow_eq_ratio {b : Nat} (hb : 0 < b) (e : ℤ) :
    (b : ℚ) ^ e = ((b ^ e.toNat : Nat) : ℚ) / ((b ^ (-e).toNat : Nat) : ℚ) := by
  rw [cast_pow_eq_zpow, cast_pow_eq_zpow, ← zpow_sub₀ (by positivity)]
  congr 1
  omega

theorem pow_cast_ne_zero {b : Nat} (hb : 0 < b) (k : Nat) : ((b ^ k : Nat) : ℚ) ≠ 0 := by
  rw [cast_pow_eq_zpow]
  positivity

namespace Format

theorem inUnits_ratio {num den : Nat} (hd : 0 < den) (e : ℤ) :
    ((inUnits num den e).1 : ℚ) / (inUnits num den e).2 = (num / den : ℚ) / 2 ^ e := by
  have hd' : (den : ℚ) ≠ 0 := by positivity
  have h1 := pow_cast_ne_zero (b := 2) (by decide) e.toNat
  have h2 := pow_cast_ne_zero (b := 2) (by decide) (-e).toNat
  have he : (2 : ℚ) ^ e = _ := zpow_eq_ratio (b := 2) (by decide) e
  rw [he, inUnits]
  simp only [Nat.cast_mul]
  field_simp

theorem inUnits_pos (num : Nat) {den : Nat} (hd : 0 < den) (e : ℤ) : 0 < (inUnits num den e).2 :=
  Nat.mul_pos hd (Nat.pow_pos (by decide))

end Format

/-- A quotient rounds to a number from which it is at most a half away, a half only from an even
one. -/
theorem roundHalfEven_eq {num den r : Nat} (hd : 0 < den) (hlow : 2 * r * den ≤ 2 * num + den)
    (hhigh : 2 * num ≤ 2 * r * den + den)
    (htie : r % 2 = 0 ∨ 2 * r * den < 2 * num + den ∧ 2 * num < 2 * r * den + den) :
    roundHalfEven num den = r := by
  have hle : num / den < r + 1 := by
    rw [Nat.div_lt_iff_lt_mul hd]
    linarith
  have hge : r ≤ num / den + 1 := by
    rw [← Nat.sub_le_iff_le_add, Nat.le_div_iff_mul_le hd, Nat.sub_mul]
    have : 2 * r * den = 2 * (r * den) := Nat.mul_assoc 2 r den
    omega
  have hsplit := Nat.div_add_mod num den
  have hrem := Nat.mod_lt num hd
  unfold roundHalfEven
  simp only
  generalize num / den = q at *
  generalize num % den = m at *
  -- So `r` is the quotient or the next number, and the remainder tells which.
  have hq : 2 * q * den = 2 * (den * q) := by ring
  have hq' : 2 * (q + 1) * den = 2 * (den * q) + 2 * den := by ring
  obtain rfl | rfl : r = q ∨ r = q + 1 := by omega
  · split
    · rfl
    · split
      · omega
      · omega
  · split
    · omega
    · split
      · rfl
      · omega

/-! ## The last bit that is kept -/

theorem two_zpow_lt {a b : ℤ} : (2 : ℚ) ^ a < 2 ^ b ↔ a < b := zpow_lt_zpow_iff_right₀ (by norm_num)

theorem two_zpow_le {a b : ℤ} : (2 : ℚ) ^ a ≤ 2 ^ b ↔ a ≤ b := zpow_le_zpow_iff_right₀ (by norm_num)

/-- A positive number lies between powers of two. -/
theorem zpow_log2_le {n : Nat} (hn : 0 < n) :
    (2 : ℚ) ^ (n.log2 : ℤ) ≤ n ∧ (n : ℚ) < 2 ^ ((n.log2 : ℤ) + 1) := by
  constructor
  · rw [← Nat.cast_two, ← cast_pow_eq_zpow]
    exact_mod_cast Nat.log2_self_le hn.ne'
  · have h := Nat.lt_log2_self (n := n)
    rw [show (n.log2 : ℤ) + 1 = ((n.log2 + 1 : Nat) : ℤ) by simp, ← Nat.cast_two,
      ← cast_pow_eq_zpow]
    exact_mod_cast h

namespace Format

variable {f : Format} {num den : Nat}

/-- A ratio lies between powers of two. -/
theorem ratio_bounds (hn : 0 < num) (hd : 0 < den) :
    (2 : ℚ) ^ ((num.log2 : ℤ) - den.log2 - 1) < num / den ∧
      (num / den : ℚ) < 2 ^ ((num.log2 : ℤ) - den.log2 + 1) := by
  have hd' : (0 : ℚ) < den := by exact_mod_cast hd
  obtain ⟨hnum, hnum'⟩ := zpow_log2_le hn
  obtain ⟨hden, hden'⟩ := zpow_log2_le hd
  constructor
  · rw [lt_div_iff₀ hd']
    calc (2 : ℚ) ^ ((num.log2 : ℤ) - den.log2 - 1) * den
        < 2 ^ ((num.log2 : ℤ) - den.log2 - 1) * 2 ^ ((den.log2 : ℤ) + 1) :=
          mul_lt_mul_of_pos_left hden' (by positivity)
      _ = 2 ^ (num.log2 : ℤ) := by
          rw [← zpow_add₀ (by norm_num)]
          congr 1
          omega
      _ ≤ num := hnum
  · rw [div_lt_iff₀ hd']
    calc (num : ℚ) < 2 ^ ((num.log2 : ℤ) + 1) := hnum'
      _ = 2 ^ ((num.log2 : ℤ) - den.log2 + 1) * 2 ^ (den.log2 : ℤ) := by
          rw [← zpow_add₀ (by norm_num)]
          congr 1
          omega
      _ ≤ 2 ^ ((num.log2 : ℤ) - den.log2 + 1) * den :=
          mul_le_mul_of_nonneg_left hden (by positivity)

/-- Whether a ratio has that many bits before the point, in units of a power of two. -/
theorem pow_le_inUnits_iff (num : Nat) (hd : 0 < den) (p : Nat) (e : ℤ) :
    2 ^ p ≤ (inUnits num den e).1 / (inUnits num den e).2 ↔ (2 : ℚ) ^ (p + e) ≤ num / den := by
  have hpos := inUnits_pos num hd e
  have hpos' : (0 : ℚ) < (inUnits num den e).2 := by exact_mod_cast hpos
  rw [Nat.le_div_iff_mul_le hpos, ← @Nat.cast_le ℚ, Nat.cast_mul, cast_pow_eq_zpow,
    ← le_div_iff₀ hpos', inUnits_ratio hd, le_div_iff₀ (by positivity), Nat.cast_two,
    ← zpow_add₀ (by norm_num)]

/-- Where the last bit of a ratio is: the mantissa has all its bits, or the exponent is the least. -/
theorem lastBit_spec (hn : 0 < num) (hd : 0 < den) :
    f.minExponent ≤ f.lastBit num den ∧
      (num / den : ℚ) < 2 ^ (f.precision + f.lastBit num den) ∧
      (f.lastBit num den = f.minExponent ∨
        (2 : ℚ) ^ (f.precision - 1 + f.lastBit num den) ≤ num / den) := by
  obtain ⟨hlow, hhigh⟩ := ratio_bounds hn hd
  -- where it would be if there were no least exponent
  have hmax {e : ℤ} (hlow : (2 : ℚ) ^ (f.precision - 1 + e) ≤ num / den)
      (hhigh : (num / den : ℚ) < 2 ^ (f.precision + e)) :
      f.minExponent ≤ max f.minExponent e ∧
        (num / den : ℚ) < 2 ^ (f.precision + max f.minExponent e) ∧
        (max f.minExponent e = f.minExponent ∨
          (2 : ℚ) ^ (f.precision - 1 + max f.minExponent e) ≤ num / den) := by
    rcases le_total e f.minExponent with hle | hle
    · rw [max_eq_left hle]
      exact ⟨le_refl _, lt_of_lt_of_le hhigh (two_zpow_le.2 (by omega)), .inl rfl⟩
    · rw [max_eq_right hle]
      exact ⟨hle, hhigh, .inr hlow⟩
  have htest := pow_le_inUnits_iff num hd f.precision ((num.log2 : ℤ) - den.log2 - f.precision)
  unfold lastBit
  simp only
  split
  · next h =>
    refine hmax ?_ (lt_of_lt_of_le hhigh (two_zpow_le.2 (by omega)))
    exact le_trans (two_zpow_le.2 (by omega)) (htest.1 h)
  · next h =>
    refine hmax (le_trans (two_zpow_le.2 (by omega)) hlow.le) ?_
    exact lt_of_lt_of_le (not_le.1 fun hle => h (htest.2 hle)) (le_refl _)

/-- That is the only such place. -/
theorem lastBit_eq (hn : 0 < num) (hd : 0 < den) {e : ℤ} (hmin : f.minExponent ≤ e)
    (hhigh : (num / den : ℚ) < 2 ^ (f.precision + e))
    (hlow : e = f.minExponent ∨ (2 : ℚ) ^ (f.precision - 1 + e) ≤ num / den) :
    f.lastBit num den = e := by
  obtain ⟨hmin', hhigh', hlow'⟩ := lastBit_spec (f := f) hn hd
  have hle {a b : ℤ} (ha : b = f.minExponent ∨ (2 : ℚ) ^ (f.precision - 1 + b) ≤ num / den)
      (hb : (num / den : ℚ) < 2 ^ (f.precision + a)) (hmin : f.minExponent ≤ a) : b ≤ a := by
    rcases ha with rfl | ha
    · exact hmin
    · have := two_zpow_lt.1 (lt_of_le_of_lt ha hb)
      omega
  exact le_antisymm (hle hlow' hhigh hmin) (hle hlow hhigh' hmin')

/-! ## Rounding to the format -/

/-- A ratio, in units of a power of two, rounds to a number from which it is at most a half away, a
half only from an even one. -/
theorem roundHalfEven_inUnits (hd : 0 < den) {e : ℤ} {r : Nat}
    (hlow : (r : ℚ) - 1 / 2 ≤ num / den / 2 ^ e) (hhigh : num / den / 2 ^ e ≤ (r : ℚ) + 1 / 2)
    (htie : r % 2 = 0 ∨
      (r : ℚ) - 1 / 2 < num / den / 2 ^ e ∧ num / den / 2 ^ e < (r : ℚ) + 1 / 2) :
    roundHalfEven (inUnits num den e).1 (inUnits num den e).2 = r := by
  have hpos := inUnits_pos num hd e
  have hpos' : (0 : ℚ) < (inUnits num den e).2 := by exact_mod_cast hpos
  rw [← inUnits_ratio hd] at hlow hhigh htie
  rw [le_div_iff₀ hpos'] at hlow
  rw [div_le_iff₀ hpos'] at hhigh
  rw [lt_div_iff₀ hpos', div_lt_iff₀ hpos'] at htie
  generalize (inUnits num den e).1 = n at *
  generalize (inUnits num den e).2 = d at *
  refine roundHalfEven_eq hpos ?_ ?_ (htie.imp_right fun h => ⟨?_, ?_⟩)
  · rw [← @Nat.cast_le ℚ]
    push_cast
    linarith
  · rw [← @Nat.cast_le ℚ]
    push_cast
    linarith
  · rw [← @Nat.cast_lt ℚ]
    push_cast
    linarith [h.1]
  · rw [← @Nat.cast_lt ℚ]
    push_cast
    linarith [h.2]

/-- A ratio whose mantissa keeps its width is rounded to that mantissa. -/
theorem nearest_eq (hn : 0 < num) {e : ℤ} {r : Nat} (he : f.lastBit num den = e)
    (hr : roundHalfEven (inUnits num den e).1 (inUnits num den e).2 = r) (hlt : r < 2 ^ f.precision)
    (hmax : e ≤ f.maxExponent) : f.nearest num den = some ⟨r, e⟩ := by
  unfold nearest
  simp only [he, hr]
  rw [if_neg hn.ne', if_neg hlt.ne]
  simp only
  rw [if_neg (not_lt.2 hmax)]

/-- A ratio whose mantissa grows by a bit is rounded to a power of two. -/
theorem nearest_eq_succ (hn : 0 < num) {e : ℤ} (he : f.lastBit num den = e)
    (hr : roundHalfEven (inUnits num den e).1 (inUnits num den e).2 = 2 ^ f.precision)
    (hmax : e + 1 ≤ f.maxExponent) :
    f.nearest num den = some ⟨2 ^ (f.precision - 1), e + 1⟩ := by
  unfold nearest
  simp only [he, hr, if_true]
  rw [if_neg hn.ne', if_neg (not_lt.2 hmax)]

end Format

end Barrage
