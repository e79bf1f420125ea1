import Barrage.Formula.Parts
import Barrage.Proofs.Formula.Reading

/-!
# How many parameters a formula needs

* `Formula.param_ne_zero_of_parse`: parameters count from one in every text.
* `Formula.maxParam_is_arity`: a formula needs as many parameters as its greatest one says. With these it
  never asks for another and no others matter; with fewer it has no value, and the error tells of the first
  part that has none.
-/

namespace Barrage.Formula

/-- The parameters of a formula are those of its tokens. -/
theorem Derives.param_mem {level : Level} {depth : Nat} {tokens : List Token} {f : Formula}
    {openings : List Opening} (h : Derives level depth tokens f openings) {index : UInt64}
    (hmem : .param index ∈ f.parts) : ∃ offset, ⟨.param index, offset⟩ ∈ tokens := by
  induction h with
  | number | rank | rand => simp [parts] at hmem
  | param =>
    obtain rfl := by simpa [parts] using hmem
    exact ⟨_, List.mem_singleton_self _⟩
  | minus _ ih =>
    obtain ⟨offset, h⟩ := ih (by simpa [parts] using hmem)
    exact ⟨offset, List.mem_cons_of_mem _ h⟩
  | plus _ ih =>
    obtain ⟨offset, h⟩ := ih hmem
    exact ⟨offset, List.mem_cons_of_mem _ h⟩
  | parentheses _ ih =>
    obtain ⟨offset, h⟩ := ih hmem
    exact ⟨offset, by simp [h]⟩
  | operand _ ih | product _ ih => exact ih hmem
  | factor _ _ _ ihl ihr | term _ _ _ ihl ihr =>
    simp only [parts, List.mem_append, List.mem_singleton, reduceCtorEq, or_false] at hmem
    rcases hmem with hmem | hmem
    · obtain ⟨offset, h⟩ := ihl hmem
      exact ⟨offset, by simp [h]⟩
    · obtain ⟨offset, h⟩ := ihr hmem
      exact ⟨offset, by simp [h]⟩

end Barrage.Formula

namespace Barrage

theorem Symbol.Spelled.param_ne_zero {text : List Char} {index : UInt64}
    (h : Symbol.Spelled text (.param index)) : index ≠ 0 := by
  rcases h with _ | ⟨-, hn⟩
  cases hn with
  | @param digits _ _ hpos hmax =>
    intro h0
    have hz := congrArg UInt64.toNat h0
    rw [UInt64.toNat_ofNat_of_lt' (by simpa using hmax), UInt64.toNat_zero] at hz
    omega

/-- Parameters count from one in every text. -/
theorem Token.Spelled.param_ne_zero {offset offset' : Nat} {cs : List Char} {tokens : List Token}
    (h : Spelled offset cs tokens) {index : UInt64} (hmem : ⟨.param index, offset'⟩ ∈ tokens) :
    index ≠ 0 := by
  induction h with
  | nil => cases hmem
  | blank _ _ ih => exact ih hmem
  | token hs _ _ ih =>
    rcases List.mem_cons.1 hmem with heq | hmem
    · obtain ⟨rfl, -⟩ := Token.mk.inj heq
      exact hs.param_ne_zero
    · exact ih hmem

end Barrage

namespace Barrage.Formula

/-- Parameters count from one in every formula that was read. -/
theorem param_ne_zero_of_parse {source : String} {f : Formula} (h : parse source = .ok f) :
    param 0 ∉ f.parts := by
  intro hmem
  obtain ⟨tokens, htokens, hf⟩ := Except.bind_ok h
  obtain ⟨openings, hd, -⟩ := derives_of_ofTokens hf
  obtain ⟨offset, hparam⟩ := hd.param_mem hmem
  exact (Token.scan_eq_ok_iff.1 htokens).param_ne_zero hparam rfl

/-- Of the parameters that exceed a number, one comes first. -/
theorem exists_first_exceeding {n : Nat} {l : List Formula}
    (h : ∃ index, param index ∈ l ∧ n < index.toNat) :
    ∃ before index rest, l = before ++ param index :: rest ∧ n < index.toNat ∧
      ∀ index, param index ∈ before → index.toNat ≤ n := by
  induction l with
  | nil => simp at h
  | cons g l ih =>
    by_cases hg : ∃ index, g = param index ∧ n < index.toNat
    · obtain ⟨index, rfl, hlt⟩ := hg
      exact ⟨[], index, l, rfl, hlt, by simp⟩
    · obtain ⟨index, hmem, hlt⟩ := h
      have hmem : param index ∈ l := (List.mem_cons.1 hmem).resolve_left fun he => hg ⟨index, he.symm, hlt⟩
      obtain ⟨before, index, rest, rfl, hlt, hle⟩ := ih ⟨index, hmem, hlt⟩
      refine ⟨g :: before, index, rest, rfl, hlt, fun index hmem => ?_⟩
      rcases List.mem_cons.1 hmem with rfl | hmem
      · exact Nat.le_of_not_lt fun hlt => hg ⟨index, rfl, hlt⟩
      · exact hle index hmem

section Run

variable {ρ : Type} [RandomSource ρ] {rank : Scalar} {params : Params} {source : ρ}

open RandomSource (after)

/-- All parts under a part that divides by zero have values. -/
theorem Faults.inRange {g : Formula} (h : g.Faults rank params source .divisionByZero) :
    ∀ index, param index ∈ g.parts → index.toNat ≤ params.length := by
  have hin {f : Formula} {x : Scalar} {source source' : ρ}
      (h : (f.value rank params).run source = (.ok x, source')) :
      ∀ index, param index ∈ f.parts → index.toNat ≤ params.length := by
    rcases f.run_value rank params source with ⟨_, -, hin⟩ | ⟨_, _, _, _, hends⟩
    · exact fun index hmem => (hin index hmem).2
    · rw [hends.result] at h
      cases h
  cases h with
  | divisor hop hx hy hzero =>
    intro index hmem
    simp only [parts, List.mem_append, List.mem_singleton, reduceCtorEq, or_false] at hmem
    exact hmem.elim (hin hx index) (hin hy index)

/-- An evaluation with too few parameters ends at the first one that exceeds them, or divides by zero before
it. -/
theorem EndsAt.exceeds {f g : Formula} {e : EvalError} {before rest : List Formula}
    (h : EndsAt rank params source f e before g rest) (hf : param 0 ∉ f.parts)
    (hlt : params.length < f.maxParam.toNat) :
    ∃ before index rest, f.parts = before ++ param index :: rest ∧ params.length < index.toNat ∧
      (∀ index, param index ∈ before → index.toNat ≤ params.length) ∧
      (e = .paramOutOfRange index params.length ∨
        e = .divisionByZero ∧ ∃ (earlier : List Formula) (g : Formula) (between : List Formula),
          before = earlier ++ g.parts ++ between ∧
          g.Faults rank params (after (earlier.count .rand) source) .divisionByZero) := by
  have hin (index : UInt64) (hmem : param index ∈ before) : index.toNat ≤ params.length :=
    (h.inRange index hmem).2
  have hfaults := h.faults
  cases hfaults with
  | @missing index hout =>
    have hparts : f.parts = before ++ param index :: rest := by
      simp [h.parts, Formula.parts]
    have hout : params.length < index.toNat := hout.resolve_left fun h0 => by
      obtain rfl : index = 0 := UInt64.toNat_inj.1 h0
      exact hf (by simp [hparts])
    exact ⟨before, index, rest, hparts, hout, hin, .inl rfl⟩
  | @divisor op lhs rhs =>
    -- No parameter up to the division exceeds what there is, and the greatest one does: it comes later.
    have hg := h.faults.inRange
    generalize binary op lhs rhs = g at h hg
    have hrest : ∃ index, param index ∈ rest ∧ params.length < index.toNat := by
      have hnot := mt maxParam_le_iff.2 (Nat.not_le.2 hlt)
      simp only [Classical.not_forall, Nat.not_le] at hnot
      obtain ⟨index, hmem, hlt⟩ := hnot
      rw [h.parts, List.mem_append, List.mem_append] at hmem
      rcases hmem with (hmem | hmem) | hmem
      · exact absurd (hin index hmem) (Nat.not_le.2 hlt)
      · exact absurd (hg index hmem) (Nat.not_le.2 hlt)
      · exact ⟨index, hmem, hlt⟩
    obtain ⟨between, index, rest, rfl, hlt, hle⟩ := exists_first_exceeding hrest
    refine ⟨before ++ g.parts ++ between, index, rest, ?_, hlt, ?_,
      .inr ⟨rfl, before, g, between, rfl, h.faults⟩⟩
    · rw [h.parts, List.append_assoc _ between]
    · intro index hmem
      rw [List.mem_append, List.mem_append] at hmem
      rcases hmem with (hmem | hmem) | hmem
      · exact hin index hmem
      · exact hg index hmem
      · exact hle index hmem

/-- With enough parameters, an evaluation ends at none. -/
theorem EndsAt.divides {f g : Formula} {e : EvalError} {before rest : List Formula}
    (h : EndsAt rank params source f e before g rest) (hf : param 0 ∉ f.parts)
    (hle : f.maxParam.toNat ≤ params.length) : e = .divisionByZero := by
  have hfaults := h.faults
  cases hfaults with
  | @missing index hout =>
    have hmem : param index ∈ f.parts := by simp [h.parts, Formula.parts]
    rcases hout with h0 | hlt
    · obtain rfl : index = 0 := UInt64.toNat_inj.1 h0
      exact absurd hmem hf
    · exact absurd (maxParam_le_iff.1 hle index hmem) (Nat.not_le.2 hlt)
  | divisor => rfl

/-- With enough parameters, others do not matter. -/
theorem eval_of_take {f : Formula} {params params' : Params} (hf : param 0 ∉ f.parts)
    (hle : f.maxParam.toNat ≤ params.length)
    (htake : params'.take f.maxParam.toNat = params.take f.maxParam.toNat) :
    (f.eval rank params').run source = (f.eval rank params).run source := by
  rw [eval, eval, value_congr fun index hmem => ?_]
  refine Params.get_of_take htake hle (Nat.one_le_iff_ne_zero.2 fun h0 => ?_)
    (maxParam_le_iff.1 (Nat.le_refl _) index hmem)
  obtain rfl : index = 0 := UInt64.toNat_inj.1 h0
  exact hf hmem

end Run

/-- A formula needs as many parameters as its greatest one says, counting from one as in every text. It has
a value, if only one that is not finite, just with these, and then draws once for each `rand` in it. With
these it never asks for another parameter, and no others matter. With fewer, the first part that has no value
is the first parameter that exceeds them or a division before it, and the error says so. -/
theorem maxParam_is_arity :
    (∀ (source : String) (f : Formula), parse source = .ok f → param 0 ∉ f.parts) ∧
    ∀ (ρ : Type) [RandomSource ρ] (f : Formula), param 0 ∉ f.parts →
      ∀ (rank : Scalar) (params : Params) (source : ρ),
        let r := (f.eval rank params).run source
        ((∃ x, r.1 = .ok x) ∨ r.1 = .error .nonFinite →
          f.maxParam.toNat ≤ params.length ∧ r.2 = RandomSource.after (f.parts.count .rand) source) ∧
        (f.maxParam.toNat ≤ params.length →
          (∀ index supplied, r.1 ≠ .error (.paramOutOfRange index supplied)) ∧
          ∀ params' : Params, params'.take f.maxParam.toNat = params.take f.maxParam.toNat →
            (f.eval rank params').run source = r) ∧
        (params.length < f.maxParam.toNat →
          ∃ before index rest, f.parts = before ++ param index :: rest ∧ params.length < index.toNat ∧
            (∀ index, param index ∈ before → index.toNat ≤ params.length) ∧
            (r.1 = .error (.paramOutOfRange index params.length) ∨
              r.1 = .error .divisionByZero ∧
                ∃ (earlier : List Formula) (g : Formula) (between : List Formula),
                  before = earlier ++ g.parts ++ between ∧
                  g.Faults rank params (RandomSource.after (earlier.count .rand) source)
                    .divisionByZero)) := by
  refine ⟨fun _ _ => param_ne_zero_of_parse, fun ρ _ f hf rank params source => ?_⟩
  rcases f.run_eval rank params source with ⟨r, hr, hrun, hin⟩ | ⟨e, before, g, rest, hends, he⟩
  · -- All parts have values, so there were enough parameters.
    have hle : f.maxParam.toNat ≤ params.length := maxParam_le_iff.2 fun index hmem => (hin index hmem).2
    refine ⟨fun _ => ⟨hle, by rw [hrun]⟩, fun _ => ⟨?_, fun _ => eval_of_take hf hle⟩, fun hlt => by omega⟩
    rintro index supplied he
    rw [hrun] at he
    rcases hr with ⟨x, rfl⟩ | rfl <;> cases he
  · refine ⟨fun hr => ?_, fun hle => ⟨?_, fun _ => eval_of_take hf hle⟩, fun hlt => ?_⟩
    · rw [he] at hr
      rcases hr with ⟨x, hx⟩ | hr
      · cases hx
      · cases hr
        cases hends.faults
    · rintro index supplied he'
      rw [he, hends.divides hf hle] at he'
      cases he'
    · obtain ⟨before, index, rest, hparts, hlt, hle, hwhy⟩ := hends.exceeds hf hlt
      exact ⟨before, index, rest, hparts, hlt, hle,
        hwhy.imp (fun h => by rw [he, h]) fun ⟨h, hearlier⟩ => ⟨by rw [he, h], hearlier⟩⟩

/-- A formula of three parameters has a value with three, misses the third with two, and with one that is
zero it divides by it first. -/
theorem maxParam_is_arity_quotient :
    ∃ f, parse "1/$1+$rand*$3" = .ok f ∧ param 0 ∉ f.parts ∧ f.maxParam.toNat = 3 ∧
      let r (params : Params) := (f.eval 0 params).run (default : Pcg)
      (∃ x, (r [2, 0, 5]).1 = .ok x) ∧ (r [2, 0, 5]).2 = (default : Pcg).next.2 ∧
      r [2, 0, 5, 9] = r [2, 0, 5] ∧
      (r [2, 0]).1 = .error (.paramOutOfRange 3 2) ∧ (r [0]).1 = .error .divisionByZero := by
  have hparse : parse "1/$1+$rand*$3" =
      .ok (binary .add (binary .div (number 1) (param 1)) (binary .mul rand (param 3))) := by
    decide +kernel
  have hzero := maxParam_is_arity.1 _ _ hparse
  obtain ⟨hvalue, henough, -⟩ := maxParam_is_arity.2 Pcg _ hzero 0 [2, 0, 5] default
  refine ⟨_, hparse, hzero, rfl, ⟨_, rfl⟩, ?_, ?_, ?_, ?_⟩
  · exact (hvalue (.inl ⟨_, rfl⟩)).2
  · exact (henough (by decide)).2 [2, 0, 5, 9] (by decide)
  · decide
  · decide
end Barrage.Formula
