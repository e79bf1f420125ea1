import Barrage.Formula.Height
import Barrage.Formula.Written
import Barrage.Proofs.Formula.Reading

/-!
# How high the formulas are that are read

The limit on nesting bounds how often a way down from a formula turns away from left operands. It says
nothing about the operators that stand in a row.

* `Formula.parse_of_writes`: a text that makes up a formula is read as that.
* `Formula.parse_height_le`: bounds on a formula that was read.
* `Formula.parse_height_unbounded`: no number bounds the height of all formulas that are read.
-/

namespace Barrage.Formula

/-- Whatever is read turns away from left operands at most as often as nesting allows. Only signs and
operators that stand in the same parentheses make it higher: where no pair of parentheses holds more than
some number of them itself, the height is bounded whatever the length of the text. It never exceeds the
number of tokens. -/
theorem parse_height_le (source : String) (f : Formula) (h : parse source = .ok f) :
    f.turns ≤ 2 * (formulaLevels + 1) ∧
    ∃ tokens, Token.scan source = .ok tokens ∧ f.height ≤ tokens.length ∧
      ∀ crowd, Token.crowd tokens ≤ crowd → f.height ≤ (formulaLevels + 1) * crowd + 1 := by
  obtain ⟨tokens, hscan, hf⟩ := Except.bind_ok h
  obtain ⟨openings, hd, hle⟩ := derives_of_ofTokens hf
  refine ⟨hd.turns_le hle, tokens, hscan, hd.height_le_length, fun crowd hcrowd => ?_⟩
  calc f.height
    _ ≤ (formulaLevels + 1) * Token.crowd tokens + 1 := hd.height_le_crowd hle
    _ ≤ (formulaLevels + 1) * crowd + 1 := by
      exact Nat.add_le_add_right (Nat.mul_le_mul_left _ hcrowd) 1

/-- The text of sums in parentheses, each a factor in the one around it. -/
def steepText : Nat → List Char
  | 0 => ['$', '1', '+', '$', '1', '*', '$', '1']
  | levels + 1 => ['$', '1', '+', '$', '1', '*', '('] ++ steepText levels ++ [')']

/-- Sums that are each a factor in the one around it. -/
def steep : Nat → Formula
  | 0 => .binary .add (.param 1) (.binary .mul (.param 1) (.param 1))
  | levels + 1 => .binary .add (.param 1) (.binary .mul (.param 1) (steep levels))

/-- As many of these as may be in parentheses turn as often as nesting allows, and they are as high as two
operators in each pair allow. -/
theorem parse_height_le_steep :
    parse (String.ofList (steepText formulaLevels)) = .ok (steep formulaLevels) ∧
      (Token.scan (String.ofList (steepText formulaLevels))).map Token.crowd = .ok 2 ∧
      (steep formulaLevels).turns = 2 * (formulaLevels + 1) ∧
      (steep formulaLevels).height = (formulaLevels + 1) * 2 + 1 := by
  have hparse : parse (String.ofList (steepText formulaLevels)) = .ok (steep formulaLevels) := by
    rw [parse, Token.scan_ofList]
    decide +kernel
  have hcrowd : (Token.scan (String.ofList (steepText formulaLevels))).map Token.crowd = .ok 2 := by
    rw [Token.scan_ofList]
    decide +kernel
  have hle := parse_height_le _ _ hparse
  obtain ⟨tokens, hscan, -, hheight⟩ := hle.2
  have htwo : Token.crowd tokens = 2 := by
    rw [hscan] at hcrowd
    exact Except.ok.inj hcrowd
  refine ⟨hparse, hcrowd, Nat.le_antisymm hle.1 ?_, Nat.le_antisymm (hheight 2 htwo.le) ?_⟩
  · decide +kernel
  · decide +kernel

/-! ## Operators in a row -/

/-- A text that makes up a formula is read as that. -/
theorem parse_of_writes {cs : List Char} {f : Formula} {levels : Nat} (h : Writes .sum cs f levels)
    (hle : levels ≤ formulaLevels) : parse (String.ofList cs) = .ok f := by
  have hstops : Stops [] := fun c hc => by cases hc
  obtain ⟨tokens, openings, hspelled, hd, hdepth, -⟩ := h 0 0 [] [] hstops .nil
  rw [List.append_nil, List.append_nil] at hspelled
  rw [Nat.zero_add] at hdepth
  rw [parse, Token.scan_eq_ok_iff.2 (by rwa [String.toList_ofList])]
  show ofTokens tokens = _
  rw [ofTokens_of_derives hd, unlessTooDeep,
    tooDeep?_eq_none_iff.2 fun o ho => Nat.le_trans (hdepth o ho) hle]

/-- A sum, a plus and one more operand. -/
theorem Writes.add {cs cs' : List Char} {f g : Formula} (h : Writes .sum cs f 0)
    (h' : Writes .operand cs' g 0) : Writes .sum (cs ++ '+' :: cs') (.binary .add f g) 0 := by
  intro depth offset rest tokens hrest htokens
  have hbehind : Token.Spelled (offset + utf8Length cs + utf8Length ['+'] + utf8Length cs')
      rest tokens := by
    rwa [Nat.add_assoc, Nat.add_assoc, ← utf8Length_append, ← utf8Length_append]
  obtain ⟨taken', openings', hspelled', hd', hle', -⟩ := h' depth _ rest tokens hrest hbehind
  have hstops : Stops ('+' :: (cs' ++ rest)) := by
    intro c hc
    cases hc
    exact ⟨rfl, rfl⟩
  obtain ⟨taken, openings, hspelled, hd, hle, -⟩ :=
    h depth offset _ _ hstops (spelled_cons (c := '+') rfl hspelled')
  have hwhole : Token.Spelled offset (cs ++ '+' :: cs' ++ rest)
      (taken ++ ⟨.op .add, offset + utf8Length cs⟩ :: taken' ++ tokens) := by
    simpa using hspelled
  refine ⟨_, _, hwhole, .term (.inl rfl) hd (.operand hd'), ?_, fun h => absurd h (Nat.lt_irrefl 0)⟩
  exact fun o ho => (List.mem_append.1 ho).elim (hle o) (hle' o)

/-- The number that a digit spells. -/
def one : Formula := .number (Decimal.toScalar ⟨false, readDigits ['1'], 0⟩)

theorem writes_one : Writes .operand ['1'] one 0 := by
  have hdigits : ∀ c ∈ ['1'], c.isDigit = true := List.forall_mem_singleton.2 rfl
  exact .symbol (.number (.whole (List.cons_ne_nil _ _) hdigits)) fun _ _ => .number

/-- The text of a one with more ones added. -/
def onesText : Nat → List Char
  | 0 => ['1']
  | more + 1 => onesText more ++ ['+', '1']

/-- A one with more ones added. -/
def ones : Nat → Formula
  | 0 => one
  | more + 1 => .binary .add (ones more) one

theorem writes_ones (more : Nat) : Writes .sum (onesText more) (ones more) 0 := by
  induction more with
  | zero => exact writes_one.sum
  | succ more ih => exact ih.add writes_one

theorem height_ones (more : Nat) : (ones more).height = 1 + more := by
  induction more with
  | zero => rfl
  | succ more ih =>
    rw [ones, height, ih, one, height]
    omega

/-- Sums have no limit, so no number bounds the height of all formulas that are read. -/
theorem parse_height_unbounded :
    ¬ ∃ bound, ∀ (source : String) (f : Formula), parse source = .ok f → f.height ≤ bound := by
  rintro ⟨bound, h⟩
  have hle := h _ _ (parse_of_writes (writes_ones bound) (Nat.zero_le _))
  rw [height_ones] at hle
  omega

end Barrage.Formula
