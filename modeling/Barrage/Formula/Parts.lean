import Barrage.Except
import Barrage.Formula.Eval

/-!
# The parts of a formula in the order of evaluation

The operands of a formula come before it, the left one first, so parameters and draws come as they are
written.

* `Formula.parts`: all parts of a formula in this order.
* `Formula.maxParam_le_iff`: the greatest parameter bounds the parameters among them.
* `RandomSource.after`: a source after some draws.
* `Formula.Faults`: a part has no value although its operands have.
* `Formula.run_value`: a formula whose parts all have values draws once for each `rand` among them; any
  other ends with the first part that faults, and with the draws before it.
* `Formula.run_eval`: the same with the test whether the value is finite; `Formula.isFinite_of_eval`.
* `Formula.value_congr`: a value depends on the parameters that are read only.
-/

namespace Barrage

/-- A source after a number of draws. -/
def RandomSource.after {ρ : Type} [RandomSource ρ] : Nat → ρ → ρ
  | 0, source => source
  | n + 1, source => after n (RandomSource.next source).2

theorem RandomSource.after_add {ρ : Type} [RandomSource ρ] (m n : Nat) (source : ρ) :
    after n (after m source) = after (m + n) source := by
  induction m generalizing source with
  | zero => rw [Nat.zero_add, after]
  | succ m ih => rw [Nat.add_right_comm, after, after, ih]

/-- There is a parameter of a number, or reading it is an error. -/
theorem Params.get_cases (params : Params) (index : UInt64) :
    (1 ≤ index.toNat ∧ index.toNat ≤ params.length ∧ ∃ x, params.get index = .ok x) ∨
    ((index.toNat = 0 ∨ params.length < index.toNat) ∧
      params.get index = .error (.paramOutOfRange index params.length)) := by
  rw [Params.get]
  split
  · next h => exact .inr ⟨.inl h, rfl⟩
  · next n h =>
    split
    · next x hx =>
      have hlt : n < params.length := (List.getElem?_eq_some_iff.1 hx).1
      exact .inl ⟨by omega, by omega, x, rfl⟩
    · next hx =>
      have hle := List.getElem?_eq_none_iff.1 hx
      exact .inr ⟨.inr (by omega), rfl⟩

/-- Parameters are the same where the lists that hold them are. -/
theorem Params.get_of_take {params params' : Params} {n : Nat} {index : UInt64}
    (htake : params'.take n = params.take n) (hn : n ≤ params.length) (hpos : 1 ≤ index.toNat)
    (hle : index.toNat ≤ n) : params'.get index = params.get index := by
  obtain ⟨i, hi⟩ : ∃ i, index.toNat = i + 1 := ⟨index.toNat - 1, by omega⟩
  have hget : params'[i]? = params[i]? := by
    rw [← List.getElem?_take_of_lt (show i < n by omega), htake,
      List.getElem?_take_of_lt (show i < n by omega)]
  have hsome : params[i]? = some params[i] := List.getElem?_eq_getElem (by omega)
  simp only [get, hi, hget, hsome]

/-- An operation has a value unless it divides by zero. -/
theorem BinaryOp.apply_cases (op : BinaryOp) (x y : Scalar) :
    (∃ z, op.apply x y = .ok z) ∨
    ((op = .div ∨ op = .rem) ∧ (y == 0) = true ∧ op.apply x y = .error .divisionByZero) := by
  cases op with
  | add | sub | mul => exact .inl ⟨_, rfl⟩
  | div | rem =>
    rw [BinaryOp.apply]
    split
    · next h => exact .inr ⟨by simp, h, rfl⟩
    · exact .inl ⟨_, rfl⟩

namespace Formula

/-- The parts of a formula in the order in which they are evaluated, itself the last. -/
def parts : Formula → List Formula
  | neg inner => inner.parts ++ [neg inner]
  | binary op lhs rhs => lhs.parts ++ (rhs.parts ++ [binary op lhs rhs])
  | number value => [number value]
  | param index => [param index]
  | rank => [rank]
  | rand => [rand]

/-- The greatest parameter of a formula bounds all its parameters, and no less does. -/
theorem maxParam_le_iff {f : Formula} {n : Nat} :
    f.maxParam.toNat ≤ n ↔ ∀ index, param index ∈ f.parts → index.toNat ≤ n := by
  induction f with
  | number _ | rank | rand => simp [maxParam, parts]
  | param index => simp [maxParam, parts]
  | neg inner ih => simpa [maxParam, parts] using ih
  | binary op lhs rhs ihl ihr =>
    have hmax : (max lhs.maxParam rhs.maxParam).toNat = max lhs.maxParam.toNat rhs.maxParam.toNat := by
      show (if lhs.maxParam ≤ rhs.maxParam then rhs.maxParam else lhs.maxParam).toNat = _
      rw [Nat.max_def]
      simp only [UInt64.le_iff_toNat_le]
      split <;> rfl
    simp only [maxParam, parts, List.mem_append, List.mem_singleton, reduceCtorEq, or_false, or_imp,
      forall_and, ← ihl, ← ihr, hmax]
    exact Nat.max_le

/-! ## Where an evaluation ends -/

section Run

open RandomSource (after after_add)

variable {ρ : Type} [RandomSource ρ] {rank : Scalar} {params : Params}

/-- A part that has no value although its operands have: there is no such parameter, or the divisor is
zero. -/
inductive Faults (rank : Scalar) (params : Params) (source : ρ) : Formula → EvalError → Prop where
  | missing {index : UInt64} (h : index.toNat = 0 ∨ params.length < index.toNat) :
    Faults rank params source (.param index) (.paramOutOfRange index params.length)
  | divisor {op : BinaryOp} {lhs rhs : Formula} {x y : Scalar} {source₁ source₂ : ρ}
    (hop : op = .div ∨ op = .rem) (hx : (lhs.value rank params).run source = (.ok x, source₁))
    (hy : (rhs.value rank params).run source₁ = (.ok y, source₂)) (hzero : (y == 0) = true) :
    Faults rank params source (.binary op lhs rhs) .divisionByZero

/-- An evaluation ends with a part that faults. The parts before it have values, and their draws and those
of the part were made. -/
structure EndsAt (rank : Scalar) (params : Params) (source : ρ) (f : Formula) (e : EvalError)
    (before : List Formula) (g : Formula) (rest : List Formula) : Prop where
  parts : f.parts = before ++ g.parts ++ rest
  result : (f.value rank params).run source
    = (.error e, after ((before ++ g.parts).count .rand) source)
  faults : g.Faults rank params (after (before.count .rand) source) e
  inRange : ∀ index, param index ∈ before → 1 ≤ index.toNat ∧ index.toNat ≤ params.length

/-- A formula whose parts all have values draws once for each `rand`. Any other ends with the first part
that has none. -/
theorem run_value (rank : Scalar) (params : Params) (f : Formula) (source : ρ) :
    (∃ x, (f.value rank params).run source = (.ok x, after (f.parts.count .rand) source) ∧
      ∀ index, param index ∈ f.parts → 1 ≤ index.toNat ∧ index.toNat ≤ params.length) ∨
    ∃ e before g rest, EndsAt rank params source f e before g rest := by
  -- The parts stand in the order of evaluation: the operands of a part before the part itself. What is
  -- drawn for one operand is drawn before the next, so the induction is for all sources.
  induction f generalizing source with
  | number x => exact .inl ⟨x, rfl, by simp [parts]⟩
  | rank => exact .inl ⟨rank, rfl, by simp [parts]⟩
  | rand => exact .inl ⟨_, rfl, by simp [parts]⟩
  | param index =>
    rcases Params.get_cases params index with ⟨hpos, hle, x, hx⟩ | ⟨hout, hx⟩
    · refine .inl ⟨x, ?_, by simp [parts, hpos, hle]⟩
      rw [value, hx]
      rfl
    · refine .inr ⟨_, [], .param index, [], rfl, ?_, .missing hout, by simp⟩
      rw [value, hx]
      rfl
  | neg inner ih =>
    rcases ih source with ⟨x, hx, hin⟩ | ⟨e, before, g, rest, hparts, hresult, hg, hin⟩
    · refine .inl ⟨-x, ?_, by simpa [parts] using hin⟩
      rw [value, run_ok hx, parts, List.count_append]
      rfl
    · refine .inr ⟨e, before, g, rest ++ [neg inner], ?_, ?_, hg, hin⟩
      · rw [parts, hparts, List.append_assoc _ rest]
      · rw [value, run_error hresult]
  | binary op lhs rhs ihl ihr =>
    rcases ihl source with ⟨x, hx, hin⟩ | ⟨e, before, g, rest, hparts, hresult, hg, hin⟩
    · rcases ihr (after (lhs.parts.count .rand) source) with
        ⟨y, hy, hin'⟩ | ⟨e, before, g, rest, hparts, hresult, hg, hin'⟩
      · have hrun : ((binary op lhs rhs).value rank params).run source
            = (op.apply x y, after ((lhs.parts ++ rhs.parts).count .rand) source) := by
          rw [value, run_ok hx, run_ok hy, after_add, List.count_append]
          rfl
        have hall : ∀ index, param index ∈ lhs.parts ++ rhs.parts →
            1 ≤ index.toNat ∧ index.toNat ≤ params.length :=
          fun index hmem => (List.mem_append.1 hmem).elim (hin index) (hin' index)
        have hparts : (binary op lhs rhs).parts = lhs.parts ++ rhs.parts ++ [binary op lhs rhs] :=
          (List.append_assoc ..).symm
        have hdraws : (binary op lhs rhs).parts.count .rand = (lhs.parts ++ rhs.parts).count .rand := by
          rw [hparts, List.count_append]
          rfl
        -- Both operands have values: the part itself faults, or nothing does.
        rcases BinaryOp.apply_cases op x y with ⟨z, hz⟩ | ⟨hop, hzero, he⟩
        · refine .inl ⟨z, by rw [hrun, hz, hdraws], ?_⟩
          rw [hparts]
          simpa using hall
        · refine .inr ⟨.divisionByZero, [], binary op lhs rhs, [], ?_, ?_, .divisor hop hx hy hzero, by simp⟩
          · simp
          · rw [hrun, he, List.nil_append, hdraws]
      · -- The right operand faults, behind all parts of the left one.
        refine .inr ⟨e, lhs.parts ++ before, g, rest ++ [binary op lhs rhs], ?_, ?_, ?_, ?_⟩
        · simp only [parts, hparts, List.append_assoc]
        · rw [value, run_ok hx, run_error hresult, after_add]
          simp only [List.count_append, Nat.add_assoc]
        · rwa [List.count_append, ← after_add]
        · intro index hmem
          exact (List.mem_append.1 hmem).elim (hin index) (hin' index)
    · refine .inr ⟨e, before, g, rest ++ (rhs.parts ++ [binary op lhs rhs]), ?_, ?_, hg, hin⟩
      · simp only [parts, hparts, List.append_assoc]
      · rw [value, run_error hresult]

/-- All parts of a formula have values and that of the formula may be finite or not, or one part faults. -/
theorem run_eval (rank : Scalar) (params : Params) (f : Formula) (source : ρ) :
    (∃ r, ((∃ x, r = .ok x) ∨ r = .error .nonFinite) ∧
      (f.eval rank params).run source = (r, after (f.parts.count .rand) source) ∧
      ∀ index, param index ∈ f.parts → 1 ≤ index.toNat ∧ index.toNat ≤ params.length) ∨
    ∃ e before g rest, EndsAt rank params source f e before g rest ∧
      ((f.eval rank params).run source).1 = .error e := by
  rcases f.run_value rank params source with ⟨x, hx, hin⟩ | ⟨e, before, g, rest, h⟩
  · refine .inl ⟨if x.isFinite then .ok x else .error .nonFinite, ?_, ?_, hin⟩
    · split
      · exact .inl ⟨x, rfl⟩
      · exact .inr rfl
    · rw [eval, run_ok hx]
      split <;> rfl
  · refine .inr ⟨e, before, g, rest, h, ?_⟩
    rw [eval, run_error h.result]

/-- A value is finite. -/
theorem isFinite_of_eval {f : Formula} {rank x : Scalar} {params : Params} {source source' : ρ}
    (h : (f.eval rank params).run source = (.ok x, source')) : x.isFinite = true := by
  rcases hv : (f.value rank params).run source with ⟨e | y, source₁⟩
  · rw [eval, run_error hv] at h
    cases h
  · rw [eval, run_ok hv] at h
    by_cases hy : y.isFinite = true
    · rw [if_pos hy] at h
      cases h
      exact hy
    · rw [if_neg hy] at h
      cases h

/-- A value depends on the parameters that are read only. -/
theorem value_congr {f : Formula} {params' : Params}
    (h : ∀ index, param index ∈ f.parts → Params.get params' index = Params.get params index) :
    (f.value rank params' : Draw ρ Scalar) = f.value rank params := by
  induction f with
  | number _ | rank | rand => rfl
  | param index => rw [value, value, h index (by simp [parts])]
  | neg inner ih =>
    rw [value, value, ih fun index hmem => h index (by simp [parts, hmem])]
  | binary op lhs rhs ihl ihr =>
    rw [value, value, ihl fun index hmem => h index (by simp [parts, hmem]),
      ihr fun index hmem => h index (by simp [parts, hmem])]

end Run

end Formula

end Barrage
