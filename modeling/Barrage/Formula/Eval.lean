import Barrage.Diagnostic
import Barrage.Formula.Basic
import Barrage.Random

/-!
# The value of a formula

A formula is evaluated from left to right against the parameters of its scope, drawing a random
number at each `rand`. The draws made before an error are not taken back.

* `BinaryOp.apply`: one operation; a quotient or remainder by zero is an error.
* `Formula.value`: the value as computed, which may be infinite or undefined.
* `Formula.eval`: the value, which has to be finite.
-/

namespace Barrage

/-- The parameters of a scope; `$1` is the first. -/
abbrev Params := List Scalar

/-- Why a formula has no value. -/
inductive EvalError where
  | paramOutOfRange (index : UInt64) (supplied : Nat)
  | divisionByZero
  | nonFinite
deriving DecidableEq, Repr

instance : Diagnostic EvalError where
  code
    | .paramOutOfRange .. => "EXPRESSION_PARAM_OUT_OF_RANGE"
    | .divisionByZero => "EXPRESSION_DIVISION_BY_ZERO"
    | .nonFinite => "EXPRESSION_NON_FINITE"
  message
    | .paramOutOfRange index supplied =>
      "parameter $" ++ toString index.toNat ++ " referenced but only " ++ toString supplied
        ++ " supplied"
    | .divisionByZero => "division by zero"
    | .nonFinite => "expression produced a non-finite value"
  severity _ := .evaluation

/-- A computation that draws from a random source and may fail; the draws stay drawn. -/
abbrev Draw (ρ α : Type) := ExceptT EvalError (StateM ρ) α

/-- One operation. A divisor of either zero is an error. -/
def BinaryOp.apply (op : BinaryOp) (lhs rhs : Scalar) : Except EvalError Scalar :=
  match op with
  | add => .ok (lhs + rhs)
  | sub => .ok (lhs - rhs)
  | mul => .ok (lhs * rhs)
  | div => if rhs == 0 then .error .divisionByZero else .ok (lhs / rhs)
  | rem => if rhs == 0 then .error .divisionByZero else .ok (lhs.remainder rhs)

namespace Params

/-- The parameter with a number, counting from one. -/
def get (params : Params) (index : UInt64) : Except EvalError Scalar :=
  match index.toNat with
  | 0 => .error (.paramOutOfRange index params.length)
  | n + 1 =>
    match params[n]? with
    | some value => .ok value
    | none => .error (.paramOutOfRange index params.length)

end Params

namespace Formula

variable {ρ : Type} [RandomSource ρ]

/-- The value as computed: operands from left to right, every operation rounded. -/
def value (rank : Scalar) (params : Params) : Formula → Draw ρ Scalar
  | .number x => pure x
  | .param index => liftExcept (Params.get params index)
  | .rank => pure rank
  | .rand => ExceptT.lift drawUnit
  | .neg inner => do
    let x ← value rank params inner
    pure (-x)
  | .binary op lhs rhs => do
    let x ← value rank params lhs
    let y ← value rank params rhs
    liftExcept (op.apply x y)
where
  /-- A result that draws nothing. -/
  liftExcept (r : Except EvalError Scalar) : Draw ρ Scalar := ExceptT.mk (pure r)

/-- The value of a formula, which has to be finite. -/
def eval (rank : Scalar) (params : Params) (f : Formula) : Draw ρ Scalar := do
  let x ← f.value rank params
  if x.isFinite then pure x else throw .nonFinite

end Formula

end Barrage
