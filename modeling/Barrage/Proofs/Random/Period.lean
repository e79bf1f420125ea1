import Barrage.Formula.Parts
import Barrage.Random.Output
import Mathlib.Algebra.Ring.GeomSum
import Mathlib.Data.UInt
import Mathlib.NumberTheory.Multiplicity

/-!
# The period of the generator

* `Pcg.state_after`: the state after some draws, as a geometric sum.
* `Pcg.two_pow_dvd_geom_sum_iff`: how often two divides such a sum.
* `Pcg.after_eq_iff`: after how many draws a generator is in its state again.
* `Pcg.after_bijective`: as many draws as there are states pass through all of them.
* `Pcg.full_period`: the generator has the greatest possible period, and in it gives every word equally
  often.
-/

namespace Barrage.Pcg

open RandomSource (after after_add)
open scoped UInt64.CommRing

/-! ## Steps -/

/-- How far a step moves a state. -/
def stride (state : UInt64) : UInt64 := step state - state

/-- The multiplier is one more than an even number and the increment is odd, so every stride is odd. -/
theorem stride_odd (state : UInt64) : (stride state).toNat % 2 = 1 := by
  have hstride : stride state = state * (multiplier - 1) + increment := by
    rw [stride, step]
    ring
  rw [hstride, UInt64.toNat_add, UInt64.toNat_mul]
  show (state.toNat * 6364136223846793004 % 2 ^ 64 + 1442695040888963407) % 2 ^ 64 % 2 = 1
  omega

/-- Every stride is a multiple of the one before it. -/
theorem stride_step (state : UInt64) : stride (step state) = multiplier * stride state := by
  rw [stride, stride, step, step]
  ring

/-- The state after some draws. -/
theorem state_after (n : ℕ) (g : Pcg) :
    (after n g).state = g.state + (∑ i ∈ Finset.range n, multiplier ^ i) * stride g.state := by
  induction n generalizing g with
  | zero => simp [after]
  | succ n ih =>
    have hnext : (RandomSource.next g).2.state = g.state + stride g.state := by
      show step g.state = _
      rw [stride]
      ring
    have hstride : stride (RandomSource.next g).2.state = multiplier * stride g.state :=
      stride_step g.state
    rw [after, ih, hstride, hnext, geom_sum_succ]
    ring

/-! ## The way back -/

/-- A geometric sum whose base is one more than a multiple of four has as many factors of two as the
number of its terms. -/
theorem two_pow_dvd_geom_sum_iff {base : ℕ} (hone : base ≠ 1) (hbase : base % 4 = 1) (k n : ℕ) :
    2 ^ k ∣ ∑ i ∈ Finset.range n, base ^ i ↔ 2 ^ k ∣ n := by
  have hlift := Int.two_pow_sub_pow' n (show (4 : ℤ) ∣ (base : ℤ) - 1 by omega)
    (show ¬ (2 : ℤ) ∣ base by omega)
  rw [one_pow, ← mul_geom_sum, emultiplicity_mul Int.prime_two] at hlift
  have hfinite : FiniteMultiplicity (2 : ℤ) ((base : ℤ) - 1) :=
    Int.finiteMultiplicity_iff.2 ⟨by decide, by omega⟩
  have hsum : emultiplicity 2 (∑ i ∈ Finset.range n, (base : ℤ) ^ i) = emultiplicity 2 (n : ℤ) :=
    WithTop.add_left_cancel (finiteMultiplicity_iff_emultiplicity_ne_top.1 hfinite) hlift
  rw [← Int.natCast_dvd_natCast, ← Int.natCast_dvd_natCast]
  push_cast
  rw [pow_dvd_iff_le_emultiplicity, hsum, pow_dvd_iff_le_emultiplicity]

theorem natCast_eq_zero_iff (n : ℕ) : (n : UInt64) = 0 ↔ 2 ^ 64 ∣ n := by
  have hcast : (n : UInt64).toNat = n % 2 ^ 64 := UInt64.toNat_ofNat'
  rw [← UInt64.toNat_inj, hcast, UInt64.toNat_zero, Nat.dvd_iff_mod_eq_zero]

/-- A generator is in its state again after every round of as many draws as there are states. -/
theorem after_eq_iff (g : Pcg) (n : ℕ) : after n g = g ↔ 2 ^ 64 ∣ n := by
  have hcast (x : UInt64) : (x.toNat : UInt64) = x := UInt64.ofNat_toNat
  have hmoved : (∑ i ∈ Finset.range n, multiplier ^ i) * stride g.state
      = (((∑ i ∈ Finset.range n, multiplier.toNat ^ i) * (stride g.state).toNat : ℕ) : UInt64) := by
    push_cast
    rw [hcast, hcast]
  have hcoprime : Nat.Coprime (2 ^ 64) (stride g.state).toNat :=
    (Nat.coprime_two_left.2 (Nat.odd_iff.2 (stride_odd g.state))).pow_left 64
  calc after n g = g
    _ ↔ (after n g).state = g.state := ⟨congrArg Pcg.state, fun h => congrArg Pcg.mk h⟩
    _ ↔ (∑ i ∈ Finset.range n, multiplier ^ i) * stride g.state = 0 := by
      rw [state_after, add_eq_left]
    _ ↔ 2 ^ 64 ∣ ∑ i ∈ Finset.range n, multiplier.toNat ^ i := by
      rw [hmoved, natCast_eq_zero_iff, hcoprime.dvd_mul_right]
    _ ↔ 2 ^ 64 ∣ n := two_pow_dvd_geom_sum_iff (by decide) (by decide) 64 n

/-- Generators in different states stay so. -/
theorem after_injective (n : ℕ) : Function.Injective (after n : Pcg → Pcg) := by
  intro g g' h
  have hback (g : Pcg) : after ((2 ^ 64 - 1) * n) (after n g) = g := by
    rw [after_add, after_eq_iff]
    exact ⟨n, by omega⟩
  rw [← hback g, h, hback g']

/-- As many draws as there are states pass through all of them. -/
theorem after_bijective (g : Pcg) :
    Function.Bijective fun n : Fin (2 ^ 64) => (after n.val g).state := by
  have hnever {m n : ℕ} (hlt : m < n) (hn : n < 2 ^ 64) : (after m g).state ≠ (after n g).state := by
    intro h
    have hround : after (n - m) (after m g) = after m g := by
      rw [after_add, Nat.add_sub_cancel' (Nat.le_of_lt hlt)]
      exact congrArg Pcg.mk h.symm
    have hle := Nat.le_of_dvd (by omega) ((after_eq_iff _ _).1 hround)
    omega
  have : Finite UInt64 := Nat.finite_of_card_ne_zero (by rw [natCard_state]; decide)
  refine Function.Injective.bijective_of_nat_card_le (fun m n h => ?_) ?_
  · rcases Nat.lt_trichotomy m n with hlt | heq | hgt
    · exact absurd h (hnever hlt n.isLt)
    · exact Fin.ext heq
    · exact absurd h.symm (hnever hgt m.isLt)
  · rw [natCard_state, Nat.card_fin]

/-! ## Words -/

/-- A draw gives the word of the state that it steps to. -/
theorem word_next (g : Pcg) : (RandomSource.next g).1 = output (RandomSource.next g).2.state := rfl

theorem after_next (g : Pcg) (n : ℕ) :
    after n (RandomSource.next g).2 = (RandomSource.next (after n g)).2 := by
  have hadd := after_add n 1 g
  rw [after, after, after] at hadd
  exact hadd.symm

/-- A generator is in its state again after as many draws as there are states, and not before. Two that
differ in their states still do after the same number of draws. In the course of these draws every word
comes as often as it is given by a state, which is as often as any other. -/
theorem full_period :
    (∀ (g : Pcg) (n : ℕ), after n g = g ↔ 2 ^ 64 ∣ n) ∧
    (∀ (g g' : Pcg) (n : ℕ), after n g = after n g' ↔ g = g') ∧
    (∀ (g : Pcg) (word : UInt32),
      {n | n < 2 ^ 64 ∧ (RandomSource.next (after n g)).1 = word}.ncard = 2 ^ 32) ∧
    ∀ word : UInt32, {state | output state = word}.ncard = 2 ^ 32 := by
  refine ⟨after_eq_iff, fun g g' n => (after_injective n).eq_iff, fun g word => ?_, ncard_output⟩
  obtain ⟨hinjective, hsurjective⟩ := after_bijective (RandomSource.next g).2
  have hbij : Set.BijOn (fun n => (after n (RandomSource.next g).2).state)
      {n | n < 2 ^ 64 ∧ (RandomSource.next (after n g)).1 = word} {state | output state = word} := by
    refine ⟨fun n h => ?_, fun m hm n hn h => ?_, fun state h => ?_⟩
    · show output (after n (RandomSource.next g).2).state = word
      rw [after_next, ← word_next]
      exact h.2
    · exact congrArg Fin.val (@hinjective ⟨m, hm.1⟩ ⟨n, hn.1⟩ h)
    · obtain ⟨n, hn⟩ := hsurjective state
      refine ⟨n, ⟨n.isLt, ?_⟩, hn⟩
      rw [word_next, ← after_next]
      exact (congrArg output hn).trans h
  rw [hbij.ncard_eq, ncard_output]

end Barrage.Pcg
