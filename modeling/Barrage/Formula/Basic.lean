import Barrage.Decimal.Shortest

/-!
# Formulas

Every number in a pattern is a formula over constants, the parameters of its scope, the rank of the
game and random draws.

* `Formula.maxParam`: the greatest parameter that a formula reads.
* `Formula.text`: the formula written out, every operation in parentheses.
-/

namespace Barrage

/-- The operators between two formulas. -/
inductive BinaryOp where
  | add
  | sub
  | mul
  | div
  | rem
deriving DecidableEq, Repr

namespace BinaryOp

/-- The sign of an operator. -/
def sign : BinaryOp → Char
  | add => '+'
  | sub => '-'
  | mul => '*'
  | div => '/'
  | rem => '%'

/-- Whether an operator joins the terms of a sum; the others join the factors of a product. -/
def isAdditive : BinaryOp → Bool
  | add | sub => true
  | mul | div | rem => false

end BinaryOp

/-- A formula. Parameters count from one. -/
inductive Formula where
  | number (value : Scalar)
  | param (index : UInt64)
  | rank
  | rand
  | neg (inner : Formula)
  | binary (op : BinaryOp) (lhs rhs : Formula)
deriving DecidableEq, Inhabited

namespace Formula

/-- The greatest parameter that a formula reads, zero if it reads none. -/
def maxParam : Formula → UInt64
  | param index => index
  | neg inner => inner.maxParam
  | binary _ lhs rhs => max lhs.maxParam rhs.maxParam
  | number _ | rank | rand => 0

/-- The formula written out. Every operation is in parentheses, so the text has one reading. -/
def text : Formula → String
  | number value => value.text
  | param index => "$" ++ toString index.toNat
  | rank => "$rank"
  | rand => "$rand"
  | neg inner => "-(" ++ inner.text ++ ")"
  | binary op lhs rhs => "(" ++ lhs.text ++ " " ++ String.singleton op.sign ++ " " ++ rhs.text ++ ")"

end Formula

end Barrage
