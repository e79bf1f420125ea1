import Barrage.Decimal.Shortest
import Barrage.Scalar.Bits
import Barrage.Scalar.Nearest

/-!
# The shortest decimal reads back

* `Decimal.value`: what a numeral stands for. `Span.Has`: a value lies in a span.
* `Span.coarsest_has`: the decimal that is looked for on the grids lies in the span.
* `Format.nearest_of_has`: what lies in the span of a magnitude rounds to it. `nearest_of_within` and
  `nearest_of_below` are the two ways in which it does, for there are twice as many numbers below a
  power of two as above it.
* `Decimal.magnitude_of_has`, `Magnitude.shortest_has`: so the shortest decimal of a magnitude has
  that magnitude.
-/

namespace Barrage

/-- The value of a numeral, its sign left out. -/
def Decimal.value (d : Decimal) : ℚ := d.digits * 10 ^ d.exponent

/-- A value, counted in the units of a span, lies in it. -/
structure Span.Has (s : Span) (u : ℚ) : Prop where
  low_le : s.low ≤ u
  le_high : u ≤ s.high
  inside : s.closed = false → s.low < u ∧ u < s.high

namespace Span

variable {s : Span} {place : ℤ}

theorem has_of_contains {num den : Nat} (hd : 0 < den) (h : s.contains num den = true) :
    s.Has (num / den) := by
  have hd' : (0 : ℚ) < den := by exact_mod_cast hd
  unfold contains at h
  cases hc : s.closed with
  | true =>
    simp only [hc, if_true, Bool.and_eq_true, decide_eq_true_eq] at h
    refine ⟨?_, ?_, fun h => by cases hc.symm.trans h⟩
    · rw [le_div_iff₀ hd']
      exact_mod_cast h.1
    · rw [div_le_iff₀ hd']
      exact_mod_cast h.2
  | false =>
    simp only [hc, Bool.false_eq_true, if_false, Bool.and_eq_true, decide_eq_true_eq] at h
    have hlow : (s.low : ℚ) < num / den := by
      rw [lt_div_iff₀ hd']
      exact_mod_cast h.1
    have hhigh : (num / den : ℚ) < s.high := by
      rw [div_lt_iff₀ hd']
      exact_mod_cast h.2
    exact ⟨hlow.le, hhigh.le, fun _ => ⟨hlow, hhigh⟩⟩

theorem scales_pos (s : Span) (place : ℤ) : 0 < (s.scales place).1 ∧ 0 < (s.scales place).2 :=
  ⟨Nat.mul_pos (Nat.pow_pos (by decide)) (Nat.pow_pos (by decide)),
    Nat.mul_pos (Nat.pow_pos (by decide)) (Nat.pow_pos (by decide))⟩

/-- A point of a grid, in the units of a span. -/
theorem scales_ratio (s : Span) (place : ℤ) (n : Nat) :
    ((n * (s.scales place).1 : Nat) : ℚ) / (s.scales place).2
      = (⟨false, n, place⟩ : Decimal).value / 2 ^ s.exponent := by
  have h1 := pow_cast_ne_zero (b := 2) (by decide) s.exponent.toNat
  have h2 := pow_cast_ne_zero (b := 2) (by decide) (-s.exponent).toNat
  have h3 := pow_cast_ne_zero (b := 10) (by decide) (-place).toNat
  have he : (2 : ℚ) ^ s.exponent = _ := zpow_eq_ratio (b := 2) (by decide) s.exponent
  have hp : (10 : ℚ) ^ place = _ := zpow_eq_ratio (b := 10) (by decide) place
  rw [Decimal.value, he, hp, scales]
  simp only [Nat.cast_mul]
  field_simp

theorem onGrid?_has {n : Nat} (h : s.onGrid? place = some n) :
    s.Has ((⟨false, n, place⟩ : Decimal).value / 2 ^ s.exponent) := by
  rw [← scales_ratio]
  refine has_of_contains (s.scales_pos place).2 ?_
  unfold onGrid? at h
  simp only at h
  split at h
  · next hboth =>
    rw [Bool.and_eq_true] at hboth
    split at h
    · cases h
      exact hboth.1
    · cases h
      exact hboth.2
  · split at h
    · next hbelow =>
      cases h
      exact hbelow
    · split at h
      · next habove =>
        cases h
        exact habove
      · cases h

/-- The decimal that is found lies in the span, on one of the grids that are looked at, if the value
itself is on the last. -/
theorem coarsest_has {steps : Nat} (hvalue : s.low < s.value ∧ s.value < s.high)
    (hlast : (s.scales (place - steps)).1 ∣ s.value * (s.scales (place - steps)).2) :
    s.Has ((s.coarsest steps place).value / 2 ^ s.exponent) ∧
      place - steps ≤ (s.coarsest steps place).exponent ∧
      (s.coarsest steps place).exponent ≤ place := by
  induction steps generalizing place with
  | zero =>
    -- The last grid has the value itself.
    rw [Nat.cast_zero, Int.sub_zero] at hlast ⊢
    refine ⟨?_, le_refl _, le_refl _⟩
    have hunit : ((s.scales place).2 : ℚ) ≠ 0 := by exact_mod_cast (s.scales_pos place).2.ne'
    have h : s.value * (s.scales place).2 / (s.scales place).1 * (s.scales place).1
        = s.value * (s.scales place).2 := Nat.div_mul_cancel hlast
    show s.Has ((⟨false, s.value * (s.scales place).2 / (s.scales place).1, place⟩ : Decimal).value
      / 2 ^ s.exponent)
    rw [← scales_ratio, h, Nat.cast_mul, mul_div_cancel_right₀ _ hunit]
    have hlow : (s.low : ℚ) < s.value := by exact_mod_cast hvalue.1
    have hhigh : (s.value : ℚ) < s.high := by exact_mod_cast hvalue.2
    exact ⟨hlow.le, hhigh.le, fun _ => ⟨hlow, hhigh⟩⟩
  | succ steps ih =>
    rw [coarsest]
    cases hg : s.onGrid? place with
    | some n =>
      exact ⟨onGrid?_has hg, by simp; omega, le_refl _⟩
    | none =>
      have hplace : place - 1 - steps = place - (steps + 1 : Nat) := by
        rw [Nat.cast_succ]
        omega
      rw [← hplace] at hlast ⊢
      obtain ⟨hhas, hlow, hhigh⟩ := ih hlast
      exact ⟨hhas, hlow, le_trans hhigh (by omega)⟩

end Span

/-! ## Rounding what lies in a span -/

section Single

variable {m : Magnitude} (hm : m.IsSingle) (hpos : 0 < m.mantissa)

include hm hpos

omit hm in
/-- What lies in the span of a magnitude is at most a half of the last bit away from it, a half only
from an even mantissa, and a quarter below the least mantissa with all its bits. -/
theorem Magnitude.near_of_has {r : ℚ} (h : m.span.Has (4 * r)) :
    (m.mantissa : ℚ) - 1 / 2 ≤ r ∧ r ≤ m.mantissa + 1 / 2 ∧
      (m.mantissa % 2 = 0 ∨ (m.mantissa : ℚ) - 1 / 2 < r ∧ r < m.mantissa + 1 / 2) ∧
      (m.mantissa = 2 ^ 23 → (m.mantissa : ℚ) - 1 / 4 ≤ r) := by
  obtain ⟨hlow, hhigh, hinside⟩ := h
  -- The span is in quarters of the last bit, and reaches down only one below the least full mantissa.
  have hcast : ((m.span.low : ℕ) : ℚ)
      = 4 * m.mantissa - if m.mantissa = 2 ^ 23 then 1 else 2 := by
    simp only [span]
    split
    · rw [Nat.cast_sub (by omega)]
      push_cast
      rfl
    · rw [Nat.cast_sub (by omega)]
      push_cast
      rfl
  have hcast' : ((m.span.high : ℕ) : ℚ) = 4 * m.mantissa + 2 := by
    simp only [span]
    push_cast
    rfl
  rw [hcast] at hlow hinside
  rw [hcast'] at hhigh hinside
  have hgap : (if m.mantissa = 2 ^ 23 then 1 else 2 : ℚ) ≤ 2 := by split <;> norm_num
  refine ⟨by linarith, by linarith, ?_, fun h => ?_⟩
  · by_cases heven : m.mantissa % 2 = 0
    · exact .inl heven
    · obtain ⟨h1, h2⟩ := hinside (by simpa [span] using heven)
      exact .inr ⟨by linarith, by linarith⟩
  · rw [if_pos h] at hlow
    linarith

omit hpos in
/-- A ratio that is at most a half of the last bit away from a mantissa that has all its bits rounds to
that. -/
theorem Format.nearest_of_within {num den : Nat} (hn : 0 < num) (hd : 0 < den)
    (hlow : (m.mantissa : ℚ) - 1 / 2 ≤ num / den / 2 ^ m.exponent)
    (hhigh : num / den / 2 ^ m.exponent ≤ (m.mantissa : ℚ) + 1 / 2)
    (htie : m.mantissa % 2 = 0 ∨ (m.mantissa : ℚ) - 1 / 2 < num / den / 2 ^ m.exponent ∧
      num / den / 2 ^ m.exponent < (m.mantissa : ℚ) + 1 / 2)
    (hfull : m.exponent = -149 ∨ (2 : ℚ) ^ (23 : ℤ) ≤ num / den / 2 ^ m.exponent) :
    Format.single.nearest num den = some m := by
  have hpower : (0 : ℚ) < 2 ^ m.exponent := by positivity
  have hwidth : (m.mantissa : ℚ) + 1 ≤ 2 ^ (24 : ℤ) := by exact_mod_cast hm.mantissa_lt
  have hlt : (num / den / 2 ^ m.exponent : ℚ) < 2 ^ (24 : ℤ) := by linarith
  have hlast : Format.single.lastBit num den = m.exponent := by
    refine lastBit_eq hn hd hm.le_exponent ?_ (hfull.imp_right fun hle => ?_)
    · rw [zpow_add₀ (by norm_num)]
      exact (div_lt_iff₀ hpower).1 hlt
    · rw [zpow_add₀ (by norm_num)]
      exact (le_div_iff₀ hpower).1 hle
  exact nearest_eq hn hlast (roundHalfEven_inUnits hd hlow hhigh htie) hm.mantissa_lt hm.exponent_le

omit hpos in
/-- A ratio that is at most a quarter of the last bit below the least mantissa with all its bits, and
keeps one bit more, rounds to that mantissa. -/
theorem Format.nearest_of_below {num den : Nat} (hn : 0 < num) (hd : 0 < den)
    (hexponent : m.exponent ≠ -149) (hleast : m.mantissa = 2 ^ 23)
    (hlow : (m.mantissa : ℚ) - 1 / 4 ≤ num / den / 2 ^ m.exponent)
    (hhigh : (num / den / 2 ^ m.exponent : ℚ) < 2 ^ (23 : ℤ)) :
    Format.single.nearest num den = some m := by
  have hmantissa : (m.mantissa : ℚ) = 2 ^ (23 : ℤ) := by
    rw [hleast]
    norm_num
  rw [hmantissa] at hlow
  have hpower : (0 : ℚ) < 2 ^ m.exponent := by positivity
  have hdouble : (num / den / 2 ^ (m.exponent - 1) : ℚ) = 2 * (num / den / 2 ^ m.exponent) := by
    rw [zpow_sub_one₀ (by norm_num)]
    field_simp
  -- In units of half the last bit the ratio rounds up to one bit more than fits, which is carried over.
  have hlast : Format.single.lastBit num den = m.exponent - 1 := by
    have := hm.le_exponent
    have h23 : (Format.single.precision : ℤ) + (m.exponent - 1) = 23 + m.exponent := by
      show (24 : ℤ) + (m.exponent - 1) = _
      omega
    have h22 : (Format.single.precision : ℤ) - 1 + (m.exponent - 1) = 22 + m.exponent := by
      show (24 : ℤ) - 1 + (m.exponent - 1) = _
      omega
    refine lastBit_eq hn hd (show -149 ≤ m.exponent - 1 by omega) ?_ (.inr ?_)
    · rw [h23, zpow_add₀ (by norm_num)]
      exact (div_lt_iff₀ hpower).1 hhigh
    · rw [h22, zpow_add₀ (by norm_num)]
      have hhalf : (2 : ℚ) ^ (22 : ℤ) ≤ 2 ^ (23 : ℤ) - 1 / 4 := by norm_num
      exact (le_div_iff₀ hpower).1 (le_trans hhalf hlow)
  have hround : roundHalfEven (inUnits num den (m.exponent - 1)).1
      (inUnits num den (m.exponent - 1)).2 = 2 ^ 24 := by
    have hwhole : ((2 ^ 24 : ℕ) : ℚ) = 2 * 2 ^ (23 : ℤ) := by norm_num
    refine roundHalfEven_inUnits hd ?_ ?_ (.inl (by norm_num))
    · rw [hdouble, hwhole]
      linarith
    · rw [hdouble, hwhole]
      linarith
  have hwhole : (⟨2 ^ 23, m.exponent⟩ : Magnitude) = m := by rw [← hleast]
  rw [nearest_eq_succ hn hlast hround (by rw [Int.sub_add_cancel]; exact hm.exponent_le),
    Int.sub_add_cancel]
  exact congrArg some hwhole

/-- What lies in the span of a magnitude rounds to it. -/
theorem Format.nearest_of_has {num den : Nat} (hn : 0 < num) (hd : 0 < den)
    (h : m.span.Has (num / den / 2 ^ m.span.exponent)) :
    Format.single.nearest num den = some m := by
  -- the ratio in units of the last bit of the magnitude, which are four times those of the span
  have hunits : (num / den / 2 ^ m.span.exponent : ℚ) = 4 * (num / den / 2 ^ m.exponent) := by
    show (num / den / 2 ^ (m.exponent - 2) : ℚ) = _
    rw [zpow_sub₀ (by norm_num)]
    field_simp
    norm_num
  rw [hunits] at h
  obtain ⟨hlow, hhigh, htie, hquarter⟩ := Magnitude.near_of_has hpos h
  by_cases hfull : m.exponent = -149 ∨ (2 : ℚ) ^ (23 : ℤ) ≤ num / den / 2 ^ m.exponent
  · exact nearest_of_within hm hn hd hlow hhigh htie hfull
  · -- only the least mantissa with all its bits has values below it, which keep one bit more
    rw [not_or, not_le] at hfull
    obtain ⟨hexponent, hbelow⟩ := hfull
    have hnormal : 2 ^ 23 ≤ m.mantissa := hm.normal.resolve_left hexponent
    have hleast : m.mantissa = 2 ^ 23 := by
      by_contra hne
      have hgreater : 2 ^ 23 + 1 ≤ m.mantissa := by omega
      have hgreater : (2 : ℚ) ^ (23 : ℤ) + 1 ≤ m.mantissa := by exact_mod_cast hgreater
      linarith
    exact nearest_of_below hm hn hd hexponent hleast (hquarter hleast) hbelow

/-- The ends of the span of a magnitude. -/
theorem Magnitude.span_bounds : 0 < m.span.low ∧ m.span.low < m.span.value ∧
    m.span.value < m.span.high ∧ m.span.high < 2 ^ 27 := by
  have := hm.mantissa_lt
  simp only [Magnitude.span]
  split <;> omega

/-- A numeral in the span of a magnitude is positive, and less than all that is out of reach. -/
theorem Decimal.value_bounds_of_has {d : Decimal}
    (h : m.span.Has (d.value / 2 ^ m.span.exponent)) : 0 < d.value ∧ d.value < 10 ^ (400 : ℤ) := by
  obtain ⟨hle, hge, -⟩ := h
  obtain ⟨hlow, -, -, hhigh⟩ := Magnitude.span_bounds hm hpos
  have hpower : (0 : ℚ) < 2 ^ m.span.exponent := by positivity
  rw [le_div_iff₀ hpower] at hle
  rw [div_le_iff₀ hpower] at hge
  have hlow : (0 : ℚ) < m.span.low := by exact_mod_cast hlow
  have hhigh : (m.span.high : ℚ) ≤ 2 ^ (27 : ℤ) := by exact_mod_cast hhigh.le
  have hexponent : (2 : ℚ) ^ m.span.exponent ≤ 2 ^ (102 : ℤ) := by
    have := hm.exponent_le
    exact two_zpow_le.2 (show m.exponent - 2 ≤ 102 by omega)
  refine ⟨lt_of_lt_of_le (mul_pos hlow hpower) hle, ?_⟩
  calc d.value ≤ m.span.high * 2 ^ m.span.exponent := hge
    _ ≤ 2 ^ (27 : ℤ) * 2 ^ (102 : ℤ) := mul_le_mul hhigh hexponent hpower.le (by positivity)
    _ < 10 ^ (40 : ℤ) := by norm_num
    _ ≤ 10 ^ (400 : ℤ) := zpow_le_zpow_right₀ (by norm_num) (by decide)

omit hm hpos in
/-- A numeral that is less than a power of ten has all its digits below that place. -/
theorem Decimal.order_le {d : Decimal} {place : ℤ} (hplace : d.exponent < place)
    (h : d.value < 10 ^ place) : d.order ≤ place := by
  have hlength : (Nat.toDigits 10 d.digits).length ≤ (place - d.exponent).toNat := by
    rw [Nat.length_toDigits_le_iff (by decide) (by omega), ← @Nat.cast_lt ℚ, cast_pow_eq_zpow,
      show (((place - d.exponent).toNat : ℕ) : ℤ) = place - d.exponent by omega,
      zpow_sub₀ (by norm_num), lt_div_iff₀ (by positivity)]
    exact_mod_cast h
  unfold order
  omega

/-- A numeral in the span of a magnitude has that magnitude. -/
theorem Decimal.magnitude_of_has {d : Decimal} (h : m.span.Has (d.value / 2 ^ m.span.exponent))
    (hlow : -400 ≤ d.exponent) (hhigh : d.exponent < 400) : d.magnitude .single = some m := by
  obtain ⟨hpositive, hless⟩ := Decimal.value_bounds_of_has hm hpos h
  have hdigits : d.digits ≠ 0 := by
    intro h0
    rw [Decimal.value, h0, Nat.cast_zero, zero_mul] at hpositive
    exact lt_irrefl _ hpositive
  have hratio : ((d.digits * 10 ^ d.exponent.toNat : ℕ) : ℚ) / (10 ^ (-d.exponent).toNat : ℕ)
      = d.value := by
    have he : (10 : ℚ) ^ d.exponent = _ := zpow_eq_ratio (b := 10) (by decide) d.exponent
    rw [Decimal.value, he, Nat.cast_mul, mul_div_assoc]
  have hlow : ¬ d.order < -reach := by
    unfold order reach
    omega
  have hhigh : ¬ reach < d.order := not_lt.2 (order_le hhigh hless)
  rw [magnitude, if_neg (not_or.2 ⟨hdigits, hlow⟩), if_neg hhigh]
  refine Format.nearest_of_has hm hpos ?_ (Nat.pow_pos (by decide)) (by rwa [hratio])
  exact Nat.mul_pos (Nat.pos_of_ne_zero hdigits) (Nat.pow_pos (by decide))

/-- The place that is looked at first is not below the last, and not far up. -/
theorem Magnitude.leadingPlace_bounds :
    min 0 m.exponent ≤ m.leadingPlace ∧ m.leadingPlace ≤ 40 := by
  have hlog : m.mantissa.log2 < 24 := (Nat.log2_lt hpos.ne').2 hm.mantissa_lt
  have := hm.exponent_le
  unfold Magnitude.leadingPlace
  simp only
  split <;> omega

omit hm hpos in
/-- The value of a magnitude is on the last grid: a power of two is a whole number of units there. -/
theorem Magnitude.value_on_grid (m : Magnitude) : (m.span.scales (min 0 m.exponent)).1 ∣
    m.span.value * (m.span.scales (min 0 m.exponent)).2 := by
  have h2 : 2 ^ (-(m.exponent - 2)).toNat ∣ 2 ^ (2 + (-min 0 m.exponent).toNat) :=
    Nat.pow_dvd_pow 2 (by omega)
  have h10 : 10 ^ (-min 0 m.exponent).toNat
      = 2 ^ (-min 0 m.exponent).toNat * 5 ^ (-min 0 m.exponent).toNat := Nat.mul_pow 2 5 _
  have hone : 10 ^ (min 0 m.exponent).toNat = 1 := by
    rw [show (min 0 m.exponent).toNat = 0 by omega]
    rfl
  simp only [Span.scales, Magnitude.span, h10, hone, Nat.one_mul]
  rw [Nat.pow_add] at h2
  refine h2.trans ⟨m.mantissa * (5 ^ (-min 0 m.exponent).toNat * 2 ^ (m.exponent - 2).toNat), ?_⟩
  ring

/-- The shortest decimal of a magnitude lies in its span. -/
theorem Magnitude.shortest_has :
    m.span.Has (m.shortest.value / 2 ^ m.span.exponent) ∧ -149 ≤ m.shortest.exponent ∧
      m.shortest.exponent ≤ 40 := by
  obtain ⟨hplace, hplace'⟩ := m.leadingPlace_bounds hm hpos
  obtain ⟨-, hvalue, hvalue', -⟩ := m.span_bounds hm hpos
  have hsteps : m.leadingPlace - (m.leadingPlace - min 0 m.exponent).toNat = min 0 m.exponent := by
    omega
  obtain ⟨hhas, hlow, hhigh⟩ :=
    Span.coarsest_has ⟨hvalue, hvalue'⟩ (hsteps.symm ▸ m.value_on_grid)
  rw [hsteps] at hlow
  have := hm.le_exponent
  exact ⟨hhas, le_trans (by omega) hlow, le_trans hhigh hplace'⟩

end Single

end Barrage
