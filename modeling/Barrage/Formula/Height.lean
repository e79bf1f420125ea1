import Barrage.Formula.Grammar

/-!
# The height of formulas

How deep a formula is, and what its tokens say about that.

* `Formula.height`: how deep a recursion over a formula goes. `Formula.turns`: how often it goes on
  to anything but a left operand.
* `Token.crowd`: how many signs and operators stand directly in one pair of parentheses.
* `Formula.Derives.turns_le`: the turns of a formula are bounded by the levels of nesting alone.
* `Formula.Derives.height_le_length`, `Formula.Derives.height_le_crowd`: the height is bounded by the
  number of tokens, and by the levels of nesting and the crowd on each of them.
-/

namespace Barrage

/-! ## Formulas -/

namespace Formula

/-- The number of parts on the longest way down from a formula. -/
def height : Formula → Nat
  | number _ | param _ | rank | rand => 1
  | neg inner => 1 + inner.height
  | binary _ lhs rhs => 1 + max lhs.height rhs.height

/-- How many steps on a way down from a formula go to what is under a sign or to a right operand, at
most. -/
def turns : Formula → Nat
  | number _ | param _ | rank | rand => 0
  | neg inner => 1 + inner.turns
  | binary _ lhs rhs => max lhs.turns (1 + rhs.turns)

end Formula

/-! ## Tokens -/

/-- The signs and operators up to a place in a text, counted by the parentheses that they stand
directly in. -/
structure Tally where
  /-- In the innermost parentheses that are open. -/
  own : Nat
  /-- In those around them, from the inside to the outside. -/
  outer : List Nat
  /-- The most in any so far. -/
  most : Nat

namespace Tally

/-- Counts one more symbol. -/
def count (tally : Tally) : Symbol → Tally
  | .op _ => { tally with own := tally.own + 1, most := max tally.most (tally.own + 1) }
  | .opening => { tally with own := 0, outer := tally.own :: tally.outer }
  | .closing => { tally with own := tally.outer.headD 0, outer := tally.outer.tail }
  | .number _ | .param _ | .rank | .rand => tally

/-- Counts the symbols of some tokens. -/
def countAll (tally : Tally) (tokens : List Token) : Tally :=
  tokens.foldl (fun tally token => tally.count token.symbol) tally

@[simp] theorem countAll_nil (tally : Tally) : tally.countAll [] = tally := rfl

@[simp] theorem countAll_cons (tally : Tally) (token : Token) (tokens : List Token) :
    tally.countAll (token :: tokens) = (tally.count token.symbol).countAll tokens := rfl

@[simp] theorem countAll_append (tally : Tally) (tokens tokens' : List Token) :
    tally.countAll (tokens ++ tokens') = (tally.countAll tokens).countAll tokens' :=
  List.foldl_append

end Tally

/-- The most signs and operators that stand directly in one pair of parentheses, or in none. -/
def Token.crowd (tokens : List Token) : Nat := (Tally.countAll ⟨0, [], 0⟩ tokens).most

/-! ## What the tokens of a formula say about it -/

/-- How many turns a level of the grammar adds to those of its operands. -/
def Level.turns : Level → Nat
  | operand => 0
  | product => 1
  | sum => 2

/-- How a tally goes on over the tokens of a formula of some height, with `levels` more signs and
parentheses to open in it. -/
structure Tally.Covers (levels height : Nat) (before after : Tally) : Prop where
  outer : after.outer = before.outer
  own_le_most : after.own ≤ after.most
  own_le : before.own ≤ after.own
  most_le : before.most ≤ after.most
  height_le : before.own + height ≤ 1 + after.own + levels * after.most

namespace Tally.Covers

variable {levels height height' : Nat} {before middle after : Tally} {op : BinaryOp}

theorem symbol (levels : Nat) (h : before.own ≤ before.most) : Covers levels 1 before before where
  outer := rfl
  own_le_most := h
  own_le := Nat.le_refl _
  most_le := Nat.le_refl _
  height_le := by omega

/-- A sign before an operand. -/
theorem sign (h : Covers levels height (before.count (.op op)) after) :
    Covers (levels + 1) (1 + height) before after := by
  obtain ⟨houter, hown, hle, hmost, hheight⟩ := h
  simp only [count] at houter hle hmost hheight
  refine ⟨houter, hown, by omega, by omega, ?_⟩
  rw [Nat.succ_mul]
  omega

/-- A pair of parentheses adds as many parts as it holds itself, which are no more than any holds. -/
theorem parentheses (hbefore : before.own ≤ before.most)
    (h : Covers levels height (before.count .opening) after) :
    Covers (levels + 1) height before (after.count .closing) := by
  obtain ⟨houter, hown, -, hmost, hheight⟩ := h
  simp only [count] at houter hmost hheight
  have hclosed : after.count .closing = ⟨before.own, before.outer, after.most⟩ := by
    rw [count, houter]
    rfl
  rw [hclosed]
  refine ⟨rfl, Nat.le_trans hbefore hmost, Nat.le_refl _, hmost, ?_⟩
  show before.own + height ≤ 1 + before.own + (levels + 1) * after.most
  rw [Nat.succ_mul]
  omega

/-- Two operands around an operator. -/
theorem binary (h : Covers levels height before middle)
    (h' : Covers levels height' (middle.count (.op op)) after) :
    Covers levels (1 + max height height') before after := by
  obtain ⟨houter, -, hle, hmost, hheight⟩ := h
  obtain ⟨houter', hown, hle', hmost', hheight'⟩ := h'
  simp only [count] at houter' hle' hmost' hheight'
  have hlevels := Nat.mul_le_mul_left levels (show middle.most ≤ after.most by omega)
  exact ⟨houter'.trans houter, hown, by omega, by omega, by omega⟩

theorem mono {height : Nat} (h : Covers levels height before after) (hle : height' ≤ height) :
    Covers levels height' before after :=
  ⟨h.outer, h.own_le_most, h.own_le, h.most_le, Nat.le_trans (by omega) h.height_le⟩

end Tally.Covers

namespace Formula

variable {level : Level} {limit depth : Nat} {tokens : List Token} {f : Formula}
  {openings : List Opening}

/-- A sign and a pair of parentheses, which open a level, turn no more often than there are levels. A
product turns once to each factor but the first, and so does a sum to its terms. -/
theorem Derives.turns_le (h : Derives level depth tokens f openings)
    (hle : ∀ o ∈ openings, o.depth ≤ limit) : f.turns ≤ 2 * (limit - depth) + level.turns := by
  induction h with
  | number | param | rank | rand => exact Nat.zero_le _
  | minus _ ih =>
    obtain ⟨hopened, hle⟩ := List.forall_mem_cons.1 hle
    have hinner := ih hle
    simp only [Level.turns, Formula.turns] at hinner hopened ⊢
    omega
  | plus _ ih =>
    obtain ⟨hopened, hle⟩ := List.forall_mem_cons.1 hle
    have hinner := ih hle
    simp only [Level.turns] at hinner hopened ⊢
    omega
  | parentheses _ ih =>
    obtain ⟨hopened, hle⟩ := List.forall_mem_cons.1 hle
    have hinner := ih hle
    simp only [Level.turns] at hinner hopened ⊢
    omega
  | operand _ ih | product _ ih =>
    have hinner := ih hle
    simp only [Level.turns] at hinner ⊢
    omega
  | factor _ _ _ ih ih' | term _ _ _ ih ih' =>
    obtain ⟨hle, hle'⟩ := List.forall_mem_append.1 hle
    have hlhs := ih hle
    have hrhs := ih' hle'
    simp only [Level.turns, Formula.turns] at hlhs hrhs ⊢
    omega

/-- A formula is no higher than the number of its tokens. -/
theorem Derives.height_le_length (h : Derives level depth tokens f openings) :
    f.height ≤ tokens.length := by
  induction h with
  | number | param | rank | rand => exact Nat.le_refl 1
  | minus _ ih =>
    simp only [height, List.length_cons]
    omega
  | plus _ ih =>
    simp only [List.length_cons]
    omega
  | parentheses _ ih =>
    simp only [List.length_cons, List.length_append]
    omega
  | operand _ ih | product _ ih => exact ih
  | factor _ _ _ ih ih' | term _ _ _ ih ih' =>
    simp only [height, List.length_append, List.length_cons]
    omega

/-- Every level adds at most as many parts to a way down as there are signs and operators directly in its
parentheses. -/
theorem Derives.covers (h : Derives level depth tokens f openings)
    (hle : ∀ o ∈ openings, o.depth ≤ limit) {tally : Tally} (htally : tally.own ≤ tally.most) :
    Tally.Covers (limit - depth) f.height tally (tally.countAll tokens) := by
  -- One level less is left behind a sign and inside parentheses.
  have hlevels {depth : Nat} (hopened : depth + 1 ≤ limit) : limit - depth = limit - (depth + 1) + 1 := by
    omega
  induction h generalizing tally with
  | number | param | rank | rand => exact .symbol _ htally
  | minus _ ih =>
    obtain ⟨hopened, hle⟩ := List.forall_mem_cons.1 hle
    rw [hlevels hopened]
    exact .sign (ih hle (Nat.le_max_right _ _))
  | plus _ ih =>
    obtain ⟨hopened, hle⟩ := List.forall_mem_cons.1 hle
    rw [hlevels hopened]
    exact (Tally.Covers.sign (ih hle (Nat.le_max_right _ _))).mono (Nat.le_add_left _ _)
  | parentheses _ ih =>
    obtain ⟨hopened, hle⟩ := List.forall_mem_cons.1 hle
    rw [hlevels hopened, Tally.countAll_cons, Tally.countAll_append]
    exact .parentheses htally (ih hle (Nat.zero_le _))
  | operand _ ih | product _ ih => exact ih hle htally
  | factor _ _ _ ih ih' | term _ _ _ ih ih' =>
    obtain ⟨hle, hle'⟩ := List.forall_mem_append.1 hle
    rw [Tally.countAll_append, Tally.countAll_cons]
    exact (ih hle htally).binary (ih' hle' (Nat.le_max_right _ _))

/-- With at most `limit` levels, and the same around them, a formula is no higher than their crowds. -/
theorem Derives.height_le_crowd (h : Derives level 0 tokens f openings)
    (hle : ∀ o ∈ openings, o.depth ≤ limit) : f.height ≤ (limit + 1) * Token.crowd tokens + 1 := by
  have htally : (⟨0, [], 0⟩ : Tally).own ≤ (⟨0, [], 0⟩ : Tally).most := Nat.le_refl 0
  have hcovers := h.covers hle htally
  obtain ⟨-, hown, -, -, hheight⟩ := hcovers
  rw [Token.crowd, Nat.succ_mul]
  simp only [Nat.sub_zero] at hheight
  omega

end Formula

end Barrage
