import Mathlib
import Barrage.Scalar.Bits

/-!
# Parts of a duration

What share of a duration has passed is a quotient, which is rounded. It is at least one as soon as
the duration is over.

* `Scalar.unpack_pack_normal`, `Scalar.unpack_pack_large`: what becomes of a number with a full
  mantissa when it is stored.
* `Scalar.roundWithAccuracy_spec`: a mantissa with a bit too many at most, rounded to the format.
* `Scalar.leading_bits`, `Scalar.quotient_bounds`, `Scalar.divCore_spec`: the mantissa of a quotient
  that is at least one, before it is rounded.
* `Scalar.not_div_lt_one`, `Scalar.atMostOne_div`: a number divided by one that is positive and not
  larger is not below one, so that its share is all.
* `Scalar.zero_add_eq`, `Scalar.le_zero_add`: what is added to zero, and that it is not below a
  number that is not positive.
-/

namespace Barrage

open Float.Model (UnpackedFloat totalExponent)
open Float.Model.UnpackedFloat

namespace Scalar

/-! ## Comparisons -/

theorem le_iff (x y : Scalar) :
    x ≤ y ↔ (x.toModel.unpack.compare y.toModel.unpack).any (·.isLE) = true := by
  show decide (x.toModel ≤ y.toModel) = true ↔ _
  rw [decide_eq_true_iff]
  rfl

theorem lt_iff (x y : Scalar) : x < y ↔ x.toModel.unpack.compare y.toModel.unpack = some .lt := by
  show decide (x.toModel < y.toModel) = true ↔ _
  rw [decide_eq_true_iff]
  show (x.toModel.unpack.compare y.toModel.unpack == some .lt) = true ↔ _
  exact beq_iff_eq

theorem unpack_zero : (0 : Scalar).toModel.unpack = .zero .positive := rfl

theorem unpack_one : (1 : Scalar).toModel.unpack = .finite .positive (2 ^ 23) (-23) (by decide) :=
  rfl

/-- The mantissa and the exponent of a finite number are of the format. -/
theorem isSingle_of_unpack {x : Scalar} {s : Sign} {m : Nat} {e : Int} {h : 0 < m}
    (hx : x.toModel.unpack = .finite s m e h) : Magnitude.IsSingle ⟨m, e⟩ := by
  have hf : x.isFinite = true := by
    show x.toModel.unpack.isFinite = true
    rw [hx]
    rfl
  obtain ⟨s', e', m', he, rfl⟩ := exists_parts hf
  have hm := m'.isLt
  have hlt := e'.isLt
  have hfull : e'.toNat ≠ 255 := fun h => he (BitVec.eq_of_toNat_eq h)
  rw [unpack_ofParts s' m' he, UnpackedFloat.unpack] at hx
  simp only [unpackExponent_packComponents, unpackMantissa_packComponents, if_neg he] at hx
  split at hx
  · -- Subnormal:
    split at hx
    · cases hx
    · next he0 _ =>
      obtain ⟨-, rfl, rfl⟩ := UnpackedFloat.finite.inj hx
      rw [he0]
      show Magnitude.IsSingle ⟨m'.toNat, -149⟩
      exact ⟨by simp only; omega, le_refl _, by simp only; omega, .inl rfl⟩
  · -- Normal, with a leading one before the stored bits:
    next he0 =>
    obtain ⟨-, rfl, rfl⟩ := UnpackedFloat.finite.inj hx
    have h0 : e'.toNat ≠ 0 := fun h => he0 (BitVec.eq_of_toNat_eq h)
    have hbits : (1#1 ++ m').toNat = 2 ^ 23 + m'.toNat := by
      rw [BitVec.toNat_append, ← Nat.shiftLeft_add_eq_or_of_lt m'.isLt]
      rfl
    have hbias : (e'.toNat : Int) - (Float.Model.Format.exponentBias .binary32 + (23 : Nat))
        = e'.toNat - 150 := rfl
    rw [hbits, hbias]
    exact ⟨by simp only; omega, by simp only; omega, by simp only; omega,
      .inr (by simp only; omega)⟩

/-- A finite number that is positive. -/
theorem unpack_of_pos {d : Scalar} (hf : d.isFinite = true) (hd : ¬ d ≤ 0) :
    ∃ m e h, d.toModel.unpack = .finite .positive m e h := by
  have hf : d.toModel.unpack.isFinite = true := hf
  rw [le_iff, unpack_zero] at hd
  rcases hu : d.toModel.unpack with s | _ | s | ⟨s, m, e, h⟩ <;> rw [hu] at hf hd
  · cases hf
  · cases hf
  · exact absurd rfl hd
  · cases s with
    | negative => exact absurd rfl hd
    | positive => exact ⟨m, e, h, rfl⟩

/-- What is not below a positive number is infinite, or has a larger exponent, or the same one and a
mantissa that is not smaller. -/
theorem unpack_of_le {d x : Scalar} {m : Nat} {e : Int} {h : 0 < m}
    (hd : d.toModel.unpack = .finite .positive m e h) (hx : d ≤ x) :
    x.toModel.unpack = .infinity .positive ∨
      ∃ m' e' h', x.toModel.unpack = .finite .positive m' e' h' ∧ (e < e' ∨ e = e' ∧ m ≤ m') := by
  rw [le_iff, hd] at hx
  rcases hu : x.toModel.unpack with s | _ | s | ⟨s, m', e', h'⟩ <;> rw [hu] at hx
  · cases s with
    | negative => cases hx
    | positive => exact .inl rfl
  · cases hx
  · cases hx
  · cases s with
    | negative => cases hx
    | positive =>
      refine .inr ⟨m', e', h', rfl, ?_⟩
      have hle : ((compare e e').then (compare m m')).isLE = true := hx
      rw [Ordering.isLE_then_iff_or] at hle
      rcases hle with hlt | ⟨heq, hle⟩
      · exact .inl (Int.compare_eq_lt.1 hlt)
      · exact .inr ⟨Int.compare_eq_eq.1 heq, Nat.isLE_compare.1 hle⟩

/-! ## Storing a number -/

section Store

variable (s : Sign) {m : Nat} {e : Int} (hpos : 0 < m)

theorem unpack_pack_infinity :
    unpack .binary32 (UnpackedFloat.pack .binary32 (.infinity s)) = .infinity s := by
  show unpack .binary32 (packedInfinity .binary32 s) = _
  simp [unpack, packedInfinity]

/-- A number with a full mantissa is stored as it is, unless it is too large. -/
theorem unpack_pack_normal (hm : 2 ^ 23 ≤ m) (hm' : m < 2 ^ 24) (he : -149 ≤ e) (he' : e ≤ 104) :
    unpack .binary32 (UnpackedFloat.pack .binary32 (.finite s m e hpos)) = .finite s m e hpos := by
  have hlog : m.log2 = 23 := (Nat.log2_eq_iff (by omega)).2 ⟨hm, hm'⟩
  have hbias : (e + Float.Model.Format.exponentBias .binary32 + (23 : Nat)).toNat
      = (e + 150).toNat := by
    show (e + 127 + 23).toNat = _
    omega
  have hpack : UnpackedFloat.pack .binary32 (.finite s m e hpos)
      = packComponents .binary32 s (BitVec.ofNat 8 (e + 150).toNat) (BitVec.ofNat 23 m) := by
    unfold UnpackedFloat.pack
    simp only [hbias, hlog]
    rw [if_neg (by omega)]
    exact if_pos rfl
  have hexponent : (BitVec.ofNat 8 (e + 150).toNat).toNat = (e + 150).toNat := by
    rw [BitVec.toNat_ofNat]
    omega
  have hmantissa : (1#1 ++ BitVec.ofNat 23 m).toNat = m := by
    rw [BitVec.toNat_append, ← Nat.shiftLeft_add_eq_or_of_lt (BitVec.isLt _), BitVec.toNat_ofNat]
    show 2 ^ 23 + m % 2 ^ 23 = m
    omega
  have hne {b : BitVec 8} (h : (e + 150).toNat ≠ b.toNat) : BitVec.ofNat 8 (e + 150).toNat ≠ b :=
    fun heq => h (by rw [← heq, hexponent])
  have hfull : (-1#8).toNat = 255 := rfl
  have hempty : (0#8).toNat = 0 := rfl
  rw [hpack, unpack]
  simp only [unpackExponent_packComponents, unpackMantissa_packComponents,
    unpackSign_packComponents, Sign.ofBitVec_toBitVec]
  rw [if_neg (hne (by omega)), if_neg (hne (by omega))]
  simp only [hexponent, hmantissa]
  congr 1
  show ((e + 150).toNat : Int) - (127 + 23) = e
  omega

/-- A number that is too large is stored as infinity. -/
theorem unpack_pack_large (he : 105 ≤ e) :
    unpack .binary32 (UnpackedFloat.pack .binary32 (.finite s m e hpos)) = .infinity s := by
  have hpack : UnpackedFloat.pack .binary32 (.finite s m e hpos) = packedInfinity .binary32 s := by
    refine if_pos ?_
    show 256 ≤ (e + 127 + 23).toNat + 1
    omega
  rw [hpack]
  exact unpack_pack_infinity s

end Store

/-! ## Rounding -/

theorem mantissa_shiftRight (em : ExtendedMantissa) (k : Nat) :
    (em >>> k).mantissa = em.mantissa / 2 ^ k := by
  induction k with
  | zero => exact (Nat.div_one _).symm
  | succ k ih =>
    show (em >>> k).mantissa / 2 = _
    rw [ih, Nat.div_div_eq_div_mul, Nat.pow_succ]

theorem mantissa_ofMantissaAndAccuracy (m : Nat) (acc : Accuracy) :
    (ExtendedMantissa.ofMantissaAndAccuracy m acc).mantissa = m := by
  rcases acc with _ | (_ | _ | _) <;> rfl

/-- A mantissa is rounded to itself or to the next. -/
theorem roundedMantissa_bounds (em : ExtendedMantissa) :
    em.mantissa ≤ em.roundedMantissa ∧ em.roundedMantissa ≤ em.mantissa + 1 := by
  obtain ⟨m, r, s⟩ := em
  have hmod := Nat.mod_lt m (show 0 < 2 by decide)
  cases r <;> cases s <;>
    simp only [ExtendedMantissa.roundedMantissa, ExtendedMantissa.accuracy,
      Accuracy.roundToNearestEven] <;> omega

/-- A mantissa that is full or has one bit too many loses the one. -/
theorem shiftToTargetExponent_spec {m : Nat} {e : Int} (acc : Accuracy) (hm : 2 ^ 23 ≤ m)
    (hm' : m < 2 ^ 25) (he : -149 ≤ e) :
    (m < 2 ^ 24 ∧ (shiftToTargetExponent .binary32 m e acc).1.mantissa = m ∧
      (shiftToTargetExponent .binary32 m e acc).2 = e) ∨
    (2 ^ 24 ≤ m ∧ (shiftToTargetExponent .binary32 m e acc).1.mantissa = m / 2 ∧
      (shiftToTargetExponent .binary32 m e acc).2 = e + 1) := by
  have htarget : Float.Model.Format.targetExponent .binary32 (totalExponent m e)
      = max (m.log2 + 1 + e - 24) (-149) := rfl
  have hshift (k : Nat) (hk : (max (m.log2 + 1 + e - 24 : Int) (-149) - e).toNat = k) :
      (shiftToTargetExponent .binary32 m e acc).1.mantissa = m / 2 ^ k ∧
        (shiftToTargetExponent .binary32 m e acc).2 = e + k := by
    unfold shiftToTargetExponent shiftToExponent
    simp only [htarget, hk, mantissa_shiftRight, mantissa_ofMantissaAndAccuracy, and_self]
  rcases Nat.lt_or_ge m (2 ^ 24) with hlt | hge
  · have hlog : m.log2 = 23 := (Nat.log2_eq_iff (by omega)).2 ⟨hm, hlt⟩
    obtain ⟨hmantissa, hexponent⟩ := hshift 0 (by omega)
    exact .inl ⟨hlt, by simpa using hmantissa, by simpa using hexponent⟩
  · have hlog : m.log2 = 24 := (Nat.log2_eq_iff (by omega)).2 ⟨hge, hm'⟩
    exact .inr ⟨hge, hshift 1 (by omega)⟩

/-- A mantissa that is full or has one bit too many is rounded to a full one. The exponent grows if
there was a bit too many. -/
theorem roundWithAccuracy_spec (s : Sign) {m : Nat} {e : Int} (acc : Accuracy) (hm : 2 ^ 23 ≤ m)
    (hm' : m < 2 ^ 25) (he : -149 ≤ e) :
    ∃ m' e' h, roundWithAccuracy .binary32 s m e acc = .finite s m' e' h ∧ 2 ^ 23 ≤ m' ∧
      m' < 2 ^ 24 ∧ e ≤ e' ∧ (2 ^ 24 ≤ m → e + 1 ≤ e') := by
  obtain ⟨o, ho⟩ : ∃ o, shiftToTargetExponent .binary32 m e acc = o := ⟨_, rfl⟩
  obtain ⟨p, hp⟩ : ∃ p, shiftToTargetExponent .binary32 o.1.roundedMantissa o.2 .exact = p :=
    ⟨_, rfl⟩
  have hround : roundWithAccuracy .binary32 s m e acc = if h : p.1.mantissa = 0 then .zero s
      else .finite s p.1.mantissa p.2 (Nat.pos_of_ne_zero h) := by
    subst hp ho
    rfl
  have hfirst := shiftToTargetExponent_spec acc hm hm' he
  rw [ho] at hfirst
  obtain ⟨hlow, hhigh⟩ := roundedMantissa_bounds o.1
  -- rounding up a mantissa of ones makes it one bit too long, so it is shifted once more
  have hsecond := shiftToTargetExponent_spec (m := o.1.roundedMantissa) (e := o.2) .exact
    (by omega) (by omega) (by omega)
  rw [hp] at hsecond
  rw [hround, dif_neg (by omega)]
  exact ⟨_, _, _, rfl, by omega, by omega, by omega, by omega⟩

/-! ## Quotients -/

/-- A dividend shifted so that it has twenty-four bits more than the divisor has a quotient that is full or
has one bit too many. -/
theorem quotient_bounds {m₁ m₂ k : Nat} (hm₁ : 0 < m₁) (hm₂ : 0 < m₂)
    (hk : m₁.log2 + k = m₂.log2 + 24) :
    2 ^ 23 ≤ m₁ * 2 ^ k / m₂ ∧ m₁ * 2 ^ k / m₂ < 2 ^ 25 := by
  have hl₁ := Nat.log2_self_le hm₁.ne'
  have hu₁ := Nat.lt_log2_self (n := m₁)
  have hl₂ := Nat.log2_self_le hm₂.ne'
  have hu₂ := Nat.lt_log2_self (n := m₂)
  rw [Nat.le_div_iff_mul_le hm₂, Nat.div_lt_iff_lt_mul hm₂]
  constructor
  · calc 2 ^ 23 * m₂ ≤ 2 ^ 23 * 2 ^ (m₂.log2 + 1) := Nat.mul_le_mul_left _ hu₂.le
      _ = 2 ^ m₁.log2 * 2 ^ k := by rw [← Nat.pow_add, ← Nat.pow_add]; congr 1; omega
      _ ≤ m₁ * 2 ^ k := Nat.mul_le_mul_right _ hl₁
  · calc m₁ * 2 ^ k < 2 ^ (m₁.log2 + 1) * 2 ^ k :=
          Nat.mul_lt_mul_of_pos_right hu₁ (Nat.two_pow_pos k)
      _ = 2 ^ 25 * 2 ^ m₂.log2 := by rw [← Nat.pow_add, ← Nat.pow_add]; congr 1; omega
      _ ≤ 2 ^ 25 * m₂ := Nat.mul_le_mul_left _ hl₂

section Order

variable {m₁ m₂ : Nat} {e₁ e₂ : Int} (h₁ : Magnitude.IsSingle ⟨m₁, e₁⟩)
  (h₂ : Magnitude.IsSingle ⟨m₂, e₂⟩) (hm₁ : 0 < m₁) (hm₂ : 0 < m₂)
  (hle : e₂ < e₁ ∨ e₂ = e₁ ∧ m₂ ≤ m₁)

include h₁ h₂ hm₁ hm₂ hle

/-- Of two numbers the one that is not smaller has the higher leading bit, or they have the same
exponent. -/
theorem leading_bits : (m₂.log2 : Int) + e₂ < m₁.log2 + e₁ ∨
    e₂ = e₁ ∧ m₂.log2 = m₁.log2 ∧ m₂ ≤ m₁ := by
  rcases hle with hlt | ⟨rfl, hle⟩
  · have hb₂ : m₂.log2 < 24 := (Nat.log2_lt hm₂.ne').2 h₂.mantissa_lt
    have hfull : 2 ^ 23 ≤ m₁ := h₁.normal.resolve_left fun h => by
      have := h₂.le_exponent
      simp only at h this
      omega
    have hlog : 23 ≤ m₁.log2 := (Nat.le_log2 hm₁.ne').2 hfull
    omega
  · have hlog : m₂.log2 ≤ m₁.log2 :=
      (Nat.le_log2 hm₁.ne').2 ((Nat.log2_self_le hm₂.ne').trans hle)
    omega

/-- The mantissa of a quotient that is at least one, before it is rounded: full, or with one bit too
many. -/
theorem divCore_spec :
    ∃ q e acc, divCore .binary32 m₁ e₁ m₂ e₂ = (q, e, acc) ∧ 2 ^ 23 ≤ q ∧ q < 2 ^ 25 ∧ -24 ≤ e ∧
      (e = -24 → 2 ^ 24 ≤ q) := by
  have hb₁ : m₁.log2 < 24 := (Nat.log2_lt hm₁.ne').2 h₁.mantissa_lt
  have hb₂ : m₂.log2 < 24 := (Nat.log2_lt hm₂.ne').2 h₂.mantissa_lt
  have htop := leading_bits h₁ h₂ hm₁ hm₂ hle
  have htarget : min (e₁ - e₂) (Float.Model.Format.targetExponent .binary32
      (totalExponent m₁ e₁ - totalExponent m₂ e₂)) = m₁.log2 + e₁ - (m₂.log2 + e₂) - 24 := by
    show min (e₁ - e₂) (max (m₁.log2 + 1 + e₁ - (m₂.log2 + 1 + e₂) - 24) (-149)) = _
    omega
  obtain ⟨k, hk, hshift⟩ : ∃ k, m₁.log2 + k = m₂.log2 + 24 ∧
      (e₁ - e₂ - (m₁.log2 + e₁ - (m₂.log2 + e₂) - 24)).toNat = k :=
    ⟨_, by omega, rfl⟩
  obtain ⟨hlow, hhigh⟩ := quotient_bounds hm₁ hm₂ hk
  refine ⟨m₁ * 2 ^ k / m₂, m₁.log2 + e₁ - (m₂.log2 + e₂) - 24,
    accuracyOfFraction (m₁ * 2 ^ k % m₂) m₂, ?_, hlow, hhigh, by omega, fun hleast => ?_⟩
  · unfold divCore
    simp only [htarget, hshift, Nat.shiftLeft_eq]
  · -- the leading bits are level, so the dividend is shifted by the whole width
    obtain ⟨-, hlog, hle⟩ := htop.resolve_left (by omega)
    rw [Nat.le_div_iff_mul_le hm₂, Nat.mul_comm, show k = 24 by omega]
    exact Nat.mul_le_mul_right _ hle

end Order

/-- A number divided by one that is positive and not larger is not below one. -/
theorem not_div_lt_one {d x : Scalar} (hf : d.isFinite = true) (hd : ¬ d ≤ 0) (hx : d ≤ x) :
    ¬ x / d < 1 := by
  obtain ⟨m₂, e₂, hm₂, hu₂⟩ := unpack_of_pos hf hd
  have hq : (x / d).toModel.unpack = unpack .binary32 (UnpackedFloat.pack .binary32
      (UnpackedFloat.div .binary32 x.toModel.unpack d.toModel.unpack)) := rfl
  rw [lt_iff, unpack_one]
  rcases unpack_of_le hu₂ hx with hu₁ | ⟨m₁, e₁, hm₁, hu₁, hle⟩ <;> rw [hu₁, hu₂] at hq
  · rw [hq]
    show ¬ UnpackedFloat.compare (unpack .binary32 (UnpackedFloat.pack .binary32
      (.infinity .positive))) _ = _
    rw [unpack_pack_infinity]
    exact fun h => by cases h
  · obtain ⟨q, e, acc, hcore, hlow, hhigh, he, hleast⟩ :=
      divCore_spec (isSingle_of_unpack hu₁) (isSingle_of_unpack hu₂) hm₁ hm₂ hle
    obtain ⟨m, e', hm, hround, hfull, hlt, hge, hgrow⟩ :=
      roundWithAccuracy_spec (e := e) (.positive / .positive) acc hlow hhigh (by omega)
    have hdiv : UnpackedFloat.div .binary32 (.finite .positive m₁ e₁ hm₁)
        (.finite .positive m₂ e₂ hm₂) = .finite .positive m e' hm := by
      rw [UnpackedFloat.div, hcore]
      exact hround
    rw [hq, hdiv]
    rcases lt_or_ge 104 e' with hlarge | hsmall
    · rw [unpack_pack_large .positive hm (by omega)]
      exact fun h => by cases h
    · rw [unpack_pack_normal .positive hm hfull hlt (by omega) hsmall]
      show ¬ some ((compare e' (-23)).then (compare m (2 ^ 23))) = some .lt
      rw [Option.some_inj, Ordering.then_eq_lt, Int.compare_eq_lt, Int.compare_eq_eq,
        Nat.compare_eq_lt]
      omega

/-- The share of a duration that is over is all of it. -/
theorem atMostOne_div {d x : Scalar} (hf : d.isFinite = true) (hd : ¬ d ≤ 0) (hx : d ≤ x) :
    (x / d).atMostOne = 1 :=
  if_neg (not_div_lt_one hf hd hx)

/-! ## Sums with zero -/

/-- What is added to zero comes out as it was, but for the sign of a zero. -/
theorem zero_add_eq (x : Scalar) : 0 + x = x ∨ 0 + x = 0 := by
  have hsum : 0 + x = Float32.ofModel (Float32.Model.pack
      (UnpackedFloat.add .binary32 (.zero .positive) x.toModel.unpack)) := rfl
  have hsame : Float32.ofModel (Float32.Model.pack x.toModel.unpack) = x :=
    Float32.ofBits_toBits x
  rcases hu : x.toModel.unpack with s | _ | s | ⟨s, m, e, h⟩ <;> rw [hu] at hsum hsame
  · exact .inl (hsum.trans hsame)
  · exact .inl (hsum.trans hsame)
  · refine .inr (hsum.trans ?_)
    cases s <;> rfl
  · exact .inl (hsum.trans hsame)

theorem unpack_of_nonneg {x : Scalar} (hx : 0 ≤ x) : x.toModel.unpack = .infinity .positive ∨
    (∃ s, x.toModel.unpack = .zero s) ∨ ∃ m e h, x.toModel.unpack = .finite .positive m e h := by
  rw [le_iff, unpack_zero] at hx
  rcases hu : x.toModel.unpack with (_ | _) | _ | s | ⟨_ | _, m, e, h⟩ <;> rw [hu] at hx
  · cases hx
  · exact .inl rfl
  · cases hx
  · exact .inr (.inl ⟨s, rfl⟩)
  · cases hx
  · exact .inr (.inr ⟨m, e, h, rfl⟩)

theorem unpack_of_nonpos {x : Scalar} (hx : x ≤ 0) : x.toModel.unpack = .infinity .negative ∨
    (∃ s, x.toModel.unpack = .zero s) ∨ ∃ m e h, x.toModel.unpack = .finite .negative m e h := by
  rw [le_iff, unpack_zero] at hx
  rcases hu : x.toModel.unpack with (_ | _) | _ | s | ⟨_ | _, m, e, h⟩ <;> rw [hu] at hx
  · exact .inl rfl
  · cases hx
  · cases hx
  · exact .inr (.inl ⟨s, rfl⟩)
  · exact .inr (.inr ⟨m, e, h, rfl⟩)
  · cases hx

/-- What is not negative is not below what is not positive. -/
theorem le_of_nonpos_of_nonneg {d x : Scalar} (hd : d ≤ 0) (hx : 0 ≤ x) : d ≤ x := by
  rw [le_iff]
  rcases unpack_of_nonpos hd with hu | ⟨_, hu⟩ | ⟨_, _, _, hu⟩ <;>
    rcases unpack_of_nonneg hx with hv | ⟨_, hv⟩ | ⟨_, _, _, hv⟩ <;> rw [hu, hv] <;> rfl

/-- What is not negative, added to zero, is not below what is not positive. -/
theorem le_zero_add {d x : Scalar} (hd : d ≤ 0) (hx : 0 ≤ x) : d ≤ 0 + x := by
  rcases zero_add_eq x with h | h <;> rw [h]
  · exact le_of_nonpos_of_nonneg hd hx
  · exact hd

end Scalar

end Barrage
