import Barrage.Random
import Mathlib.Data.Set.Card
import Mathlib.SetTheory.Cardinal.Finite

/-!
# The words that states give

* `Pcg.folded`, `Pcg.turn`: the word before it is rotated, and how far it is rotated.
* `Pcg.rotateRight_injective`: a rotation loses nothing.
* `Pcg.eq_of_folded`: a state is determined by its folded word and the bits around it, which are the
  lowest 27 and the highest 5.
* `Pcg.bijective_split`: the word of a state says nothing about these bits, so
  `Pcg.ncard_output`: every word is given by as many states as there are choices of them.
-/

namespace Barrage.Pcg

variable {state state' : UInt64}

/-- The word that a state gives before it is rotated. -/
def folded (state : UInt64) : UInt32 := (((state >>> 18) ^^^ state) >>> 27).toUInt32

/-- How far the folded word of a state is rotated, which its top five bits say. -/
def turn (state : UInt64) : UInt32 := (state >>> 59).toUInt32

theorem output_eq (state : UInt64) : output state = rotateRight (folded state) (turn state) := rfl

theorem toNat_turn (state : UInt64) : (turn state).toNat = state.toNat / 2 ^ 59 := by
  have hlt := state.toNat_lt
  rw [turn, UInt64.toNat_toUInt32, UInt64.toNat_shiftRight]
  show state.toNat >>> 59 % 2 ^ 32 = _
  rw [Nat.shiftRight_eq_div_pow]
  omega

theorem turn_lt (state : UInt64) : (turn state).toNat < 32 := by
  have hlt := state.toNat_lt
  rw [toNat_turn]
  omega

/-! ## Rotating -/

section Rotating

variable {word word' amount : UInt32}

/-- How far a word is shifted to the left by a rotation to the right. -/
theorem toNat_complement (h : amount.toNat < 32) :
    ((32 - amount) &&& 31).toNat = (32 - amount.toNat) % 32 := by
  have hle : amount ≤ 32 := UInt32.le_iff_toNat_le.2 (Nat.le_of_lt h)
  rw [UInt32.toNat_and, UInt32.toNat_sub_of_le _ _ hle]
  exact Nat.and_two_pow_sub_one_eq_mod (32 - amount.toNat) 5

theorem toBitVec_rotateRight (word : UInt32) (h : amount.toNat < 32) :
    (rotateRight word amount).toBitVec = word.toBitVec.rotateRight amount.toNat := by
  have hright : (amount.toBitVec % 32).toNat = amount.toNat := Nat.mod_eq_of_lt h
  have hleft : (((32 - amount) &&& 31).toBitVec % 32).toNat = (32 - amount.toNat) % 32 := by
    rw [BitVec.toNat_umod, UInt32.toNat_toBitVec, toNat_complement h]
    exact Nat.mod_mod _ 32
  rw [BitVec.rotateRight_def, Nat.mod_eq_of_lt h, rotateRight, UInt32.toBitVec_or,
    UInt32.toBitVec_shiftRight, UInt32.toBitVec_shiftLeft, BitVec.ushiftRight_eq',
    BitVec.shiftLeft_eq', hright, hleft]
  rcases Nat.eq_zero_or_pos amount.toNat with hzero | hpos
  · simp [hzero]
  · rw [Nat.mod_eq_of_lt (show 32 - amount.toNat < 32 by omega)]

theorem rotateRight_injective (h : amount.toNat < 32)
    (heq : rotateRight word amount = rotateRight word' amount) : word = word' := by
  have hbits := congrArg UInt32.toBitVec heq
  rw [toBitVec_rotateRight _ h, toBitVec_rotateRight _ h] at hbits
  have hbit (i : Nat) := congrArg (·.getLsbD i) hbits
  simp only [BitVec.getLsbD_rotateRight_of_lt h] at hbit
  refine UInt32.eq_of_toBitVec_eq (BitVec.eq_of_getLsbD_eq fun i hi => ?_)
  rcases Nat.lt_or_ge i amount.toNat with hlt | hge
  · have hmoved := hbit (i + (32 - amount.toNat))
    simpa [show i + (32 - amount.toNat) < 32 by omega] using hmoved
  · have hmoved := hbit (i - amount.toNat)
    simpa [show i - amount.toNat < 32 - amount.toNat by omega, Nat.add_sub_cancel' hge] using hmoved

end Rotating

/-! ## Folding -/

/-- A bit of the folded word is one of the state, changed by the one 18 places above. -/
theorem testBit_folded (state : UInt64) {i : Nat} (hi : i < 32) :
    (folded state).toNat.testBit i
      = (state.toNat.testBit (i + 27 + 18) ^^ state.toNat.testBit (i + 27)) := by
  have hshift (x : UInt64) {n : UInt64} : (x >>> n).toNat = x.toNat >>> (n.toNat % 64) :=
    UInt64.toNat_shiftRight x n
  rw [folded, UInt64.toNat_toUInt32, Nat.testBit_mod_two_pow, hshift, UInt64.toNat_xor, hshift,
    Nat.testBit_shiftRight, Nat.testBit_xor, Nat.testBit_shiftRight]
  show (decide (i < 32) && (state.toNat.testBit (18 + (27 + i)) ^^ state.toNat.testBit (27 + i))) = _
  rw [decide_eq_true hi, Bool.true_and, Nat.add_comm 27 i, Nat.add_comm 18]

theorem eq_of_folded (hfolded : folded state = folded state')
    (hlow : state.toNat % 2 ^ 27 = state'.toNat % 2 ^ 27)
    (hhigh : state.toNat / 2 ^ 59 = state'.toNat / 2 ^ 59) : state = state' := by
  -- The bits of the folded word are undone from the highest on.
  have hfrom (i : Nat) (hi : 27 ≤ i) : state.toNat.testBit i = state'.toNat.testBit i := by
    induction hn : 64 - i using Nat.strong_induction_on generalizing i with
    | _ n ih =>
      rcases Nat.lt_or_ge i 59 with hlt | hge
      · have habove := ih (64 - (i + 18)) (by omega) (i + 18) (by omega) rfl
        have hbit := testBit_folded state (show i - 27 < 32 by omega)
        rw [hfolded, testBit_folded state' (by omega), Nat.sub_add_cancel hi, habove] at hbit
        simpa using hbit.symm
      · have hbit := congrArg (·.testBit (i - 59)) hhigh
        simpa only [Nat.testBit_div_two_pow, Nat.sub_add_cancel hge] using hbit
  refine UInt64.toNat_inj.1 (Nat.eq_of_testBit_eq fun i => ?_)
  rcases Nat.lt_or_ge i 27 with hlt | hge
  · have hbit := congrArg (·.testBit i) hlow
    simpa only [Nat.testBit_mod_two_pow, hlt, decide_true, Bool.true_and] using hbit
  · exact hfrom i hge

/-! ## How many states give a word -/

theorem natCard_state : Nat.card UInt64 = 2 ^ 64 := by
  have hequiv : UInt64 ≃ Fin (2 ^ 64) :=
    ⟨UInt64.toFin, UInt64.ofFin, fun _ => rfl, fun _ => rfl⟩
  rw [Nat.card_congr hequiv, Nat.card_fin]

/-- The bits of a state that its folded word does not determine. -/
def around (state : UInt64) : Fin (2 ^ 27) × Fin (2 ^ 5) :=
  (⟨state.toNat % 2 ^ 27, Nat.mod_lt _ (by decide)⟩, ⟨(turn state).toNat, turn_lt state⟩)

/-- The word of a state and the bits around what was folded are independent. -/
theorem bijective_split :
    Function.Bijective fun state : UInt64 => ((output state).toFin, around state) := by
  refine Function.Injective.bijective_of_nat_card_le (fun state state' h => ?_) ?_
  · simp only [around, Prod.mk.injEq, Fin.mk.injEq, toNat_turn] at h
    obtain ⟨hword, hlow, hhigh⟩ := h
    have hturn : turn state = turn state' := by
      rw [← UInt32.toNat_inj, toNat_turn, toNat_turn, hhigh]
    have hword : output state = output state' := congrArg UInt32.ofFin hword
    rw [output_eq, output_eq, hturn] at hword
    exact eq_of_folded (rotateRight_injective (turn_lt state') hword) hlow hhigh
  · rw [natCard_state, Nat.card_prod, Nat.card_prod, Nat.card_fin, Nat.card_fin, Nat.card_fin]
    decide

/-- Every word is given by as many states. -/
theorem ncard_output (word : UInt32) : {state | output state = word}.ncard = 2 ^ 32 := by
  have hbij : Set.BijOn around {state | output state = word} Set.univ := by
    refine ⟨Set.mapsTo_univ _ _, fun state h state' h' heq => ?_, fun bits _ => ?_⟩
    · exact bijective_split.1 (Prod.ext (congrArg UInt32.toFin (h.trans h'.symm)) heq)
    · obtain ⟨state, h⟩ := bijective_split.2 (word.toFin, bits)
      exact ⟨state, UInt32.toFin_inj.1 (congrArg Prod.fst h), congrArg Prod.snd h⟩
  rw [hbij.ncard_eq, Set.ncard_univ, Nat.card_prod, Nat.card_fin, Nat.card_fin]
  rfl

end Barrage.Pcg
