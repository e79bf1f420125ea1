import Barrage.Formula.Token

/-!
# The grammar of formulas

Which tokens make up a formula, whichever way they are read:

* a sum is a product, or a sum, `+` or `-`, and a product;
* a product is an operand, or a product, `*`, `/` or `%`, and an operand;
* an operand is a sign and an operand, a sum in parentheses, a number, a parameter, `$rank` or `$rand`.

`Formula.Derives` is this grammar with the formula that is made. It also lists the signs and
parentheses that were opened, in the order of the text, each with the number of those that are open at
the same time.
-/

namespace Barrage

/-- The levels of the grammar, the tightest first. -/
inductive Level where
  | operand
  | product
  | sum
deriving DecidableEq, Repr

/-- A sign or a parenthesis that opens at an offset, and how many are open then, itself included. -/
structure Opening where
  offset : Nat
  depth : Nat
deriving DecidableEq, Repr

/-- Tokens at a level of the grammar, around which `depth` signs and parentheses are open, make up a
formula and open some more. -/
inductive Formula.Derives : Level → Nat → List Token → Formula → List Opening → Prop where
  | number {depth offset : Nat} {value : Scalar} :
    Derives .operand depth [⟨.number value, offset⟩] (.number value) []
  | param {depth offset : Nat} {index : UInt64} :
    Derives .operand depth [⟨.param index, offset⟩] (.param index) []
  | rank {depth offset : Nat} : Derives .operand depth [⟨.rank, offset⟩] .rank []
  | rand {depth offset : Nat} : Derives .operand depth [⟨.rand, offset⟩] .rand []
  | minus {depth offset : Nat} {tokens : List Token} {f : Formula} {openings : List Opening}
    (h : Derives .operand (depth + 1) tokens f openings) :
    Derives .operand depth (⟨.op .sub, offset⟩ :: tokens) (.neg f)
      (⟨offset, depth + 1⟩ :: openings)
  /-- A sign of plus leaves nothing behind. -/
  | plus {depth offset : Nat} {tokens : List Token} {f : Formula} {openings : List Opening}
    (h : Derives .operand (depth + 1) tokens f openings) :
    Derives .operand depth (⟨.op .add, offset⟩ :: tokens) f (⟨offset, depth + 1⟩ :: openings)
  /-- Parentheses leave nothing behind. -/
  | parentheses {depth offset offset' : Nat} {tokens : List Token} {f : Formula}
    {openings : List Opening} (h : Derives .sum (depth + 1) tokens f openings) :
    Derives .operand depth (⟨.opening, offset⟩ :: (tokens ++ [⟨.closing, offset'⟩])) f
      (⟨offset, depth + 1⟩ :: openings)
  | operand {depth : Nat} {tokens : List Token} {f : Formula} {openings : List Opening}
    (h : Derives .operand depth tokens f openings) : Derives .product depth tokens f openings
  | factor {depth offset : Nat} {op : BinaryOp} {tokens tokens' : List Token} {f g : Formula}
    {openings openings' : List Opening} (hop : op = .mul ∨ op = .div ∨ op = .rem)
    (h : Derives .product depth tokens f openings)
    (h' : Derives .operand depth tokens' g openings') :
    Derives .product depth (tokens ++ ⟨.op op, offset⟩ :: tokens') (.binary op f g)
      (openings ++ openings')
  | product {depth : Nat} {tokens : List Token} {f : Formula} {openings : List Opening}
    (h : Derives .product depth tokens f openings) : Derives .sum depth tokens f openings
  | term {depth offset : Nat} {op : BinaryOp} {tokens tokens' : List Token} {f g : Formula}
    {openings openings' : List Opening} (hop : op = .add ∨ op = .sub)
    (h : Derives .sum depth tokens f openings)
    (h' : Derives .product depth tokens' g openings') :
    Derives .sum depth (tokens ++ ⟨.op op, offset⟩ :: tokens') (.binary op f g)
      (openings ++ openings')

/-- The first sign or parenthesis with which more than `limit` are open. -/
def tooDeep? (limit : Nat) (openings : List Opening) : Option Opening :=
  openings.find? fun o => limit < o.depth

theorem tooDeep?_eq_none_iff {limit : Nat} {openings : List Opening} :
    tooDeep? limit openings = none ↔ ∀ o ∈ openings, o.depth ≤ limit := by
  simp [tooDeep?]

theorem tooDeep?_append (limit : Nat) (openings openings' : List Opening) :
    tooDeep? limit (openings ++ openings')
      = (tooDeep? limit openings).or (tooDeep? limit openings') :=
  List.find?_append

end Barrage
