import Barrage.Formula.Eval
import Barrage.Formula.Written
import Barrage.Proofs.Formula.Reading

/-!
# Formulas survive being written out

* `Formula.value_asRead`: a formula has the value of what its text is read as.
* `Formula.text_derives`: the tokens of the text of a formula.
* `Formula.parse_text`: which formulas are read back from their text, and as what.
-/

namespace Barrage.Formula

/-- A formula has the value of what its text is read as, with the same draws. -/
theorem value_asRead {f : Formula} (hf : f.Writable) (ρ : Type) [RandomSource ρ] (rank : Scalar)
    (params : Params) : (f.asRead.value rank params : Draw ρ Scalar) = f.value rank params := by
  induction f with
  | number x =>
    rw [asRead]
    cases hn : x.isNegative with
    | false => rfl
    | true => exact congrArg (fun y => (pure y : Draw ρ Scalar)) (Scalar.neg_abs_of_neg hf hn)
  | param _ | rank | rand => rfl
  | neg inner ih => rw [asRead, value, value, ih hf]
  | binary op lhs rhs ihl ihr => rw [asRead, value, value, ihl hf.1, ihr hf.2]

theorem asRead_of_unsigned {f : Formula} (hf : f.Unsigned) : f.asRead = f := by
  induction f with
  | number x =>
    have hx : x.isNegative = false := hf
    rw [asRead, hx, if_neg Bool.false_ne_true]
  | param _ | rank | rand => rfl
  | neg inner ih => rw [asRead, ih hf]
  | binary op lhs rhs ihl ihr => rw [asRead, ihl hf.1, ihr hf.2]

/-- The tokens of the text of a formula make up the formula as it is read, and open as many signs and
parentheses at the same time as the formula nests. -/
theorem text_derives {f : Formula} (hf : f.Writable) : ∃ tokens openings,
    Token.scan f.text = .ok tokens ∧ Derives .sum 0 tokens f.asRead openings ∧
      ((∀ o ∈ openings, o.depth ≤ formulaLevels) ↔ f.nesting ≤ formulaLevels) := by
  have hstops : Stops [] := fun c hc => by cases hc
  obtain ⟨tokens, openings, hspelled, hd, hle, hdeepest⟩ := writes_text hf 0 0 [] [] hstops .nil
  rw [List.append_nil, List.append_nil] at hspelled
  rw [Nat.zero_add] at hle hdeepest
  refine ⟨tokens, openings, Token.scan_eq_ok_iff.2 hspelled, .product (.operand hd), ?_, ?_⟩
  · intro hall
    rcases Nat.eq_zero_or_pos f.nesting with hzero | hpos
    · exact hzero ▸ Nat.zero_le _
    · obtain ⟨o, ho, hdepth⟩ := hdeepest hpos
      exact hdepth ▸ hall o ho
  · exact fun h o ho => Nat.le_trans (hle o ho) h

/-- A formula whose numbers are finite and whose parameters count from one is read back from its text
if no more signs and parentheses nest in that than are allowed; if more do, the text is refused for
being too deep. What is read is the formula itself, but for negative numbers, which become a sign and
the size of the number; it has the same value or error, with the same draws, under every rank and all
parameters. Two formulas without negative numbers never have the same text. -/
theorem parse_text (f : Formula) (hf : f.Writable) :
    ((∃ g, parse f.text = .ok g) ↔ f.nesting ≤ formulaLevels) ∧
    (f.nesting ≤ formulaLevels → parse f.text = .ok f.asRead) ∧
    (formulaLevels < f.nesting → ∃ offset, parse f.text = .error (.tooDeep offset)) ∧
    (f.Unsigned → f.asRead = f) ∧
    (∀ (ρ : Type) [RandomSource ρ] (rank : Scalar) (params : Params),
      (f.asRead.value rank params : Draw ρ Scalar) = f.value rank params ∧
        (f.asRead.eval rank params : Draw ρ Scalar) = f.eval rank params) ∧
    ∀ g : Formula, g.Writable → f.Unsigned → g.Unsigned → f.text = g.text → f = g := by
  obtain ⟨tokens, openings, hscan, hd, hdepth⟩ := text_derives hf
  have hparse : parse f.text = unlessTooDeep formulaLevels openings (.ok f.asRead) := by
    rw [parse, hscan]
    exact ofTokens_of_derives hd
  have hread (h : f.nesting ≤ formulaLevels) : parse f.text = .ok f.asRead := by
    rw [hparse, unlessTooDeep, tooDeep?_eq_none_iff.2 (hdepth.2 h)]
  have hrefused (h : formulaLevels < f.nesting) :
      ∃ offset, parse f.text = .error (.tooDeep offset) := by
    cases hdeep : tooDeep? formulaLevels openings with
    | none => exact absurd (hdepth.1 (tooDeep?_eq_none_iff.1 hdeep)) (Nat.not_le.2 h)
    | some o => exact ⟨o.offset, by rw [hparse, unlessTooDeep, hdeep]⟩
  refine ⟨⟨fun hparsed => ?_, fun h => ⟨_, hread h⟩⟩, hread, hrefused, asRead_of_unsigned,
    fun ρ _ rank params => ?_, fun g hg hu hu' htext => ?_⟩
  · obtain ⟨g, hg⟩ := hparsed
    by_contra h
    obtain ⟨offset, herror⟩ := hrefused (Nat.not_le.1 h)
    cases herror.symm.trans hg
  · have hvalue := value_asRead hf ρ rank params
    exact ⟨hvalue, by rw [eval, eval, hvalue]⟩
  · obtain ⟨tokens', openings', hscan', hd', -⟩ := text_derives hg
    obtain rfl : tokens = tokens' := Except.ok.inj (hscan.symm.trans (htext ▸ hscan'))
    have h := hd.unique hd'
    rwa [asRead_of_unsigned hu, asRead_of_unsigned hu'] at h

/-- A negative number times a parameter under a sign. -/
def mirrored : Formula := .binary .mul (.number (-1.5)) (.neg (.param 1))

/-- A parameter under several signs. -/
def underSigns : Nat → Formula
  | 0 => .param 1
  | n + 1 => .neg (underSigns n)

/-- The negative number is read back as a sign and its size. Thirty-three signs, with as many
parentheses, are too many; thirty-two are read back as they are. -/
theorem parse_text_mirrored :
    mirrored.Writable ∧ mirrored.nesting ≤ formulaLevels ∧
      parse mirrored.text = .ok (.binary .mul (.neg (.number 1.5)) (.neg (.param 1))) ∧
      parse (underSigns 32).text = .ok (underSigns 32) ∧
      ∃ offset, parse (underSigns 33).text = .error (.tooDeep offset) := by
  have hf : mirrored.Writable := by decide
  have hle : mirrored.nesting ≤ formulaLevels := by decide
  have hread : mirrored.asRead = .binary .mul (.neg (.number 1.5)) (.neg (.param 1)) := by decide
  obtain ⟨-, hok, -, hsame, -⟩ := parse_text (underSigns 32) (by decide)
  obtain ⟨-, -, hrefused, -⟩ := parse_text (underSigns 33) (by decide)
  have hunsigned : (underSigns 32).asRead = underSigns 32 := hsame trivial
  exact ⟨hf, hle, hread ▸ (parse_text mirrored hf).2.1 hle, hunsigned ▸ hok (by decide),
    hrefused (by decide)⟩

end Barrage.Formula
