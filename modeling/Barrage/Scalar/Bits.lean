import Mathlib
import Barrage.Scalar.Basic

/-!
# The bits of a scalar

* `Magnitude.IsSingle`: the magnitudes of the thirty-two bit format. `Scalar.exists_magnitude`: a
  finite scalar has one.
* `Scalar.ofParts`: the scalar of a sign, an exponent field and a mantissa field.
  `Scalar.exists_parts`: every finite scalar is one of them, and its exponent field is not full.
* `Scalar.ofMagnitude_magnitude?`, `Scalar.abs_eq_ofMagnitude`, `Scalar.neg_abs_of_neg`: a finite
  scalar is its sign and its magnitude.
-/

namespace Barrage

open Float.Model (UnpackedFloat)
open Float.Model.UnpackedFloat

/-- A magnitude of the thirty-two bit format: the leading bit is set unless the exponent is the
least. -/
structure Magnitude.IsSingle (m : Magnitude) : Prop where
  mantissa_lt : m.mantissa < 2 ^ 24
  le_exponent : -149 ≤ m.exponent
  exponent_le : m.exponent ≤ 104
  normal : m.exponent = -149 ∨ 2 ^ 23 ≤ m.mantissa

namespace Scalar

/-! ## Fields of thirty-two bits -/

section Fields

variable (s : Sign) {e : BitVec 8} (m : BitVec 23)

theorem toNat_packComponents (e : BitVec 8) :
    (packComponents .binary32 s e m).toNat
      = s.toBitVec.toNat * 2 ^ 31 + e.toNat * 2 ^ 23 + m.toNat := by
  rw [packComponents, BitVec.toNat_append, BitVec.toNat_append,
    ← Nat.shiftLeft_add_eq_or_of_lt e.isLt, ← Nat.shiftLeft_add_eq_or_of_lt m.isLt]
  simp only [Nat.shiftLeft_eq]
  omega

/-- The fields of a finite number are put together again to the same bits. -/
theorem pack_unpack_packComponents (he : e ≠ -1#8) :
    UnpackedFloat.pack .binary32 (UnpackedFloat.unpack .binary32 (packComponents .binary32 s e m))
      = packComponents .binary32 s e m :=
  pack_unpack_of_valid ⟨fun h => absurd (unpackExponent_packComponents.symm.trans h) he⟩

/-- What only changes the sign of a number changes only the field of the sign. -/
theorem unpack_resign (e : BitVec 8) (f : UnpackedFloat → UnpackedFloat) (s' : Sign)
    (hnan : f .notANumber = .notANumber) (hinfinity : f (.infinity s) = .infinity s')
    (hzero : f (.zero s) = .zero s')
    (hfinite : ∀ mantissa exponent hpos,
      f (.finite s mantissa exponent hpos) = .finite s' mantissa exponent hpos) :
    f (UnpackedFloat.unpack .binary32 (packComponents .binary32 s e m))
      = UnpackedFloat.unpack .binary32 (packComponents .binary32 s' e m) := by
  unfold UnpackedFloat.unpack
  simp only [unpackExponent_packComponents, unpackMantissa_packComponents,
    unpackSign_packComponents, Sign.ofBitVec_toBitVec]
  split
  · split
    · exact hinfinity
    · exact hnan
  · split
    · split
      · exact hzero
      · exact hfinite _ _ _
    · exact hfinite _ _ _

end Fields

/-! ## Scalars by their fields -/

/-- The scalar of a sign, an exponent field and a mantissa field. -/
def ofParts (s : Sign) (e : BitVec 8) (m : BitVec 23) : Scalar :=
  ofBits ⟨packComponents .binary32 s e m⟩

section Parts

variable (s : Sign) {e : BitVec 8} (m : BitVec 23) (he : e ≠ -1#8)

include he

theorem toBits_ofParts : (ofParts s e m).toBits = ⟨packComponents .binary32 s e m⟩ :=
  congrArg UInt32.ofBitVec (pack_unpack_packComponents s m he)

theorem unpack_ofParts : (ofParts s e m).toModel.unpack =
    UnpackedFloat.unpack .binary32 (packComponents .binary32 s e m) :=
  congrArg (fun b : UInt32 => UnpackedFloat.unpack .binary32 b.toBitVec) (toBits_ofParts s m he)

theorem toNat_toBits_ofParts : (ofParts s e m).toBits.toNat
    = s.toBitVec.toNat * 2 ^ 31 + e.toNat * 2 ^ 23 + m.toNat := by
  rw [toBits_ofParts s m he]
  exact toNat_packComponents s m e

theorem isNegative_ofParts : (ofParts s e m).isNegative = true ↔ s = .negative := by
  have hb := toNat_toBits_ofParts s m he
  have := e.isLt
  have := m.isLt
  rw [isNegative, beq_iff_eq, ← UInt32.toNat_inj, UInt32.toNat_shiftRight, hb,
    Nat.shiftRight_eq_div_pow]
  show (s.toBitVec.toNat * 2 ^ 31 + e.toNat * 2 ^ 23 + m.toNat) / 2 ^ 31 = 1 ↔ _
  cases s with
  | negative =>
    show (1 * 2 ^ 31 + e.toNat * 2 ^ 23 + m.toNat) / 2 ^ 31 = 1 ↔ _
    simp only [iff_true]
    omega
  | positive =>
    show (0 * 2 ^ 31 + e.toNat * 2 ^ 23 + m.toNat) / 2 ^ 31 = 1 ↔ _
    simp only [reduceCtorEq, iff_false]
    omega

theorem magnitude?_ofParts : (ofParts s e m).magnitude? =
    some (if e = 0#8 then ⟨m.toNat, -149⟩ else ⟨2 ^ 23 + m.toNat, e.toNat - 150⟩) := by
  have hlt := e.isLt
  have hm := m.isLt
  have hne : e.toNat ≠ 255 := fun h => he (BitVec.eq_of_toNat_eq h)
  have hexponent : (ofParts s e m).toBits.toNat / 2 ^ 23 % 2 ^ 8 = e.toNat := by
    rw [toNat_toBits_ofParts s m he]
    omega
  have hmantissa : (ofParts s e m).toBits.toNat % 2 ^ 23 = m.toNat := by
    rw [toNat_toBits_ofParts s m he]
    omega
  have hzero : e = 0#8 ↔ e.toNat = 0 := ⟨fun h => h ▸ rfl, fun h => BitVec.eq_of_toNat_eq h⟩
  simp only [magnitude?, hexponent, hmantissa, if_neg hne, hzero]
  split <;> rfl

theorem abs_ofParts : (ofParts s e m).abs = ofParts .positive e m := by
  show Float32.ofModel (Float32.Model.pack (ofParts s e m).toModel.unpack.abs) = _
  rw [unpack_ofParts s m he,
    unpack_resign s m e UnpackedFloat.abs .positive rfl rfl rfl fun _ _ _ => rfl]
  rfl

theorem neg_ofParts : -ofParts s e m = ofParts (-s) e m := by
  show Float32.ofModel (Float32.Model.pack (ofParts s e m).toModel.unpack.neg) = _
  rw [unpack_ofParts s m he,
    unpack_resign s m e UnpackedFloat.neg (-s) rfl rfl rfl fun _ _ _ => rfl]
  rfl

/-- The scalar of a sign and of the magnitude of some fields. -/
theorem ofMagnitude_magnitude?_ofParts (negative : Bool) :
    ofMagnitude negative (ofParts s e m).magnitude?
      = ofParts (if negative then .negative else .positive) e m := by
  have hm := m.isLt
  have hlt := e.isLt
  have hbits : magnitudeBits
      (if e = 0#8 then ⟨m.toNat, -149⟩ else ⟨2 ^ 23 + m.toNat, e.toNat - 150⟩)
      = e.toNat * 2 ^ 23 + m.toNat := by
    split
    · next he0 =>
      rw [magnitudeBits, if_pos hm, he0]
      exact (Nat.zero_add _).symm
    · have hlarge : ¬ 2 ^ 23 + m.toNat < 2 ^ 23 := by omega
      rw [magnitudeBits, if_neg hlarge]
      simp only
      omega
  rw [magnitude?_ofParts s m he, ofMagnitude, ofParts]
  simp only [hbits]
  refine congrArg ofBits (UInt32.toNat_inj.1 ?_)
  rw [UInt32.toNat_ofNat']
  cases negative with
  | true =>
    show _ = (packComponents .binary32 .negative e m).toNat
    rw [toNat_packComponents, if_pos rfl]
    show _ = 1 * 2 ^ 31 + _ + _
    omega
  | false =>
    show _ = (packComponents .binary32 .positive e m).toNat
    rw [toNat_packComponents, if_neg Bool.false_ne_true]
    show _ = 0 * 2 ^ 31 + _ + _
    omega

end Parts

/-- A finite scalar has a sign, an exponent field and a mantissa field. -/
theorem exists_parts {x : Scalar} (h : x.isFinite = true) :
    ∃ s e m, e ≠ -1#8 ∧ x = ofParts s e m := by
  obtain ⟨s, e, m, hb⟩ : ∃ (s : Sign) (e : BitVec 8) (m : BitVec 23),
      packComponents .binary32 s e m = x.toBits.toBitVec :=
    ⟨_, _, _, packComponents_unpackSign_unpackExponent_unpackMantissa _⟩
  have he : e ≠ -1#8 := by
    rintro rfl
    have hf : (UnpackedFloat.unpack .binary32 x.toBits.toBitVec).isFinite = true := h
    rw [← hb, UnpackedFloat.unpack] at hf
    simp only [unpackExponent_packComponents, if_true] at hf
    split at hf <;> cases hf
  refine ⟨s, e, m, he, Float32.toBits_inj.1 ?_⟩
  rw [toBits_ofParts s m he, hb]

/-- A finite scalar has a magnitude of the format. -/
theorem exists_magnitude {x : Scalar} (h : x.isFinite = true) :
    ∃ m, x.magnitude? = some m ∧ m.IsSingle := by
  obtain ⟨s, e, m, he, rfl⟩ := exists_parts h
  refine ⟨_, magnitude?_ofParts s m he, ?_⟩
  have hm := m.isLt
  have hlt := e.isLt
  have hne : e.toNat ≠ 255 := fun h => he (BitVec.eq_of_toNat_eq h)
  split
  · exact ⟨by simp only; omega, le_refl _, by simp only; omega, .inl rfl⟩
  · next he0 =>
    have h0 : e.toNat ≠ 0 := fun h => he0 (BitVec.eq_of_toNat_eq h)
    exact ⟨by simp only; omega, by simp only; omega, by simp only; omega,
      .inr (by simp only; omega)⟩

section Finite

variable {x : Scalar} (h : x.isFinite = true)

include h

/-- A finite scalar is its sign and its magnitude. -/
theorem ofMagnitude_magnitude? : ofMagnitude x.isNegative x.magnitude? = x := by
  obtain ⟨s, e, m, he, rfl⟩ := exists_parts h
  rw [ofMagnitude_magnitude?_ofParts s m he]
  cases s with
  | negative => rw [(isNegative_ofParts _ m he).2 rfl, if_pos rfl]
  | positive =>
    have hn : (ofParts .positive e m).isNegative ≠ true := fun h => by
      cases (isNegative_ofParts _ m he).1 h
    rw [if_neg hn]

/-- The size of a finite scalar is its magnitude. -/
theorem abs_eq_ofMagnitude : x.abs = ofMagnitude false x.magnitude? := by
  obtain ⟨s, e, m, he, rfl⟩ := exists_parts h
  rw [ofMagnitude_magnitude?_ofParts s m he, abs_ofParts s m he]
  rfl

theorem abs_of_nonneg (hn : x.isNegative = false) : x.abs = x := by
  rw [abs_eq_ofMagnitude h, ← hn, ofMagnitude_magnitude? h]

theorem neg_abs_of_neg (hn : x.isNegative = true) : -x.abs = x := by
  obtain ⟨s, e, m, he, rfl⟩ := exists_parts h
  rw [abs_ofParts s m he, neg_ofParts .positive m he, (isNegative_ofParts s m he).1 hn]
  rfl

end Finite

end Scalar

end Barrage
