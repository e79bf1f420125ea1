import Barrage.Decimal.ReadBack
import Barrage.Formula.Grammar
import Barrage.Formula.Spelling

/-!
# What the text of a formula spells

* `Decimal.positional_spelled`, `Scalar.text_spelled`: a numeral that is written out is spelled, and has
  the same value; so the text of a finite scalar spells its size, after a sign if it is negative.
* `Formula.Writable`: a formula that has a text. `Formula.nesting`: how many signs and parentheses are
  open in its text at the same time. `Formula.asRead`: the formula with a sign in place of that of a
  negative number.
* `Formula.Writes`: a text spells tokens that make up a formula, wherever it stands.
  `Formula.writes_text`: the text of a formula does that.
-/

namespace Barrage

/-! ## Digits -/

theorem readDigits_toDigits (n : Nat) : readDigits (Nat.toDigits 10 n) = n :=
  Nat.ofDigitChars_ten_toDigits

theorem readDigits_append_zeros (cs : List Char) (k : Nat) :
    readDigits (cs ++ List.replicate k '0') = 10 ^ k * readDigits cs :=
  (Nat.ofDigitChars_append 0).trans Nat.ofDigitChars_replicate_zero

theorem readDigits_zeros_append (k : Nat) (cs : List Char) :
    readDigits (List.replicate k '0' ++ cs) = readDigits cs := by
  have h : Nat.ofDigitChars 10 (List.replicate k '0') 0 = 0 := Nat.ofDigitChars_replicate_zero
  exact (Nat.ofDigitChars_append 0).trans (congrArg (Nat.ofDigitChars 10 cs) h)

theorem isDigit_of_mem_zeros_append {k : Nat} {cs : List Char} (h : ∀ c ∈ cs, c.isDigit = true) :
    ∀ c ∈ List.replicate k '0' ++ cs, c.isDigit = true :=
  List.forall_mem_append.2 ⟨fun c hc => by rw [List.eq_of_mem_replicate hc]; rfl, h⟩

namespace Decimal

/-- Digits with zeros behind them spell a whole number. -/
theorem spelled_shifted (n k : Nat) : ∃ d,
    Spelled (Nat.toDigits 10 n ++ List.replicate k '0') d ∧ d.value = n * 10 ^ (k : ℤ) ∧
      d.exponent = 0 := by
  refine ⟨_, .whole (by simp [Nat.toDigits_ne_nil]) ?_, ?_, rfl⟩
  · exact List.forall_mem_append.2
      ⟨fun c hc => Nat.isDigit_of_mem_toDigits (by decide) (by decide) hc,
        fun c hc => by rw [List.eq_of_mem_replicate hc]; rfl⟩
  · rw [value, readDigits_append_zeros, readDigits_toDigits, Nat.cast_mul, cast_pow_eq_zpow,
      zpow_zero, mul_one, mul_comm]
    rfl

/-- Digits with a point before the last of them. -/
theorem spelled_pointed {cs : List Char} (places : Nat)
    (hdigits : ∀ c ∈ cs, c.isDigit = true) (hplaces : places < cs.length) : ∃ d,
    Spelled (cs.take (cs.length - places) ++ '.' :: cs.drop (cs.length - places)) d ∧
      d.value = readDigits cs * 10 ^ (-places : ℤ) ∧ d.exponent = -places := by
  have hsplit := List.take_append_drop (cs.length - places) cs
  have hexponent : -((cs.drop (cs.length - places)).length : ℤ) = -places := by
    rw [List.length_drop]
    omega
  refine ⟨_, .point ?_ ?_, ?_, hexponent⟩
  · rw [hsplit]
    exact List.ne_nil_of_length_pos (by omega)
  · rwa [hsplit]
  · rw [value, hsplit, hexponent]

/-- A numeral that is written out is spelled, after its sign, and has the same value. -/
theorem positional_spelled (d : Decimal) : ∃ cs d',
    d.positional.toList = (if d.negative then '-' :: cs else cs) ∧ Spelled cs d' ∧
      d'.value = d.value ∧ (d'.exponent = 0 ∨ d'.exponent = d.exponent) := by
  unfold positional
  simp only [String.toList_ofList]
  by_cases hexponent : 0 ≤ d.exponent
  · obtain ⟨d', hspelled, hvalue, hwhole⟩ := spelled_shifted d.digits d.exponent.toNat
    have hplace : (d.exponent.toNat : ℤ) = d.exponent := Int.toNat_of_nonneg hexponent
    rw [if_pos hexponent]
    exact ⟨_, d', rfl, hspelled, by rw [hvalue, hplace, value], .inl hwhole⟩
  · -- the zeros in front leave at least one digit before the point
    have hdigits := isDigit_of_mem_zeros_append
      (k := (-d.exponent).toNat + 1 - (Nat.toDigits 10 d.digits).length) fun c hc =>
        Nat.isDigit_of_mem_toDigits (b := 10) (n := d.digits) (by decide) (by decide) hc
    obtain ⟨d', hspelled, hvalue, hplace⟩ :=
      spelled_pointed (-d.exponent).toNat hdigits (by simp; omega)
    rw [readDigits_zeros_append, readDigits_toDigits] at hvalue
    have hback : -((-d.exponent).toNat : ℤ) = d.exponent := by omega
    rw [if_neg hexponent]
    rw [hback] at hvalue hplace
    exact ⟨_, d', rfl, hspelled, hvalue, .inr hplace⟩

end Decimal

/-- A numeral without a digit other than zero has no magnitude. -/
theorem Decimal.magnitude_of_value_zero {d : Decimal} (h : d.value = 0) :
    d.magnitude .single = some ⟨0, -149⟩ := by
  have hdigits : d.digits = 0 := by
    have hpower : (10 : ℚ) ^ d.exponent ≠ 0 := by positivity
    exact_mod_cast (mul_eq_zero.1 h).resolve_right hpower
  rw [magnitude, if_pos (.inl hdigits)]
  rfl

/-- The text of a finite scalar spells its size, after a sign if it is negative. -/
theorem Scalar.text_spelled {x : Scalar} (hx : x.isFinite = true) : ∃ cs d,
    x.text.toList = (if x.isNegative then '-' :: cs else cs) ∧ Decimal.Spelled cs d ∧
      d.toScalar = x.abs := by
  obtain ⟨m, hm, hsingle⟩ := Scalar.exists_magnitude hx
  let d : Decimal := if m.mantissa = 0 then ⟨false, 0, 0⟩ else m.shortest
  obtain ⟨cs, d', htext, hspelled, hvalue, hexponent⟩ :=
    Decimal.positional_spelled { d with negative := x.isNegative }
  have hvalue : d'.value = d.value := hvalue
  have hexponent : d'.exponent = 0 ∨ d'.exponent = d.exponent := hexponent
  have hmagnitude : d'.magnitude .single = some m := by
    by_cases hzero : m.mantissa = 0
    · have hleast : m.exponent = -149 := hsingle.normal.resolve_right (by omega)
      have hd : d = ⟨false, 0, 0⟩ := if_pos hzero
      rw [Decimal.magnitude_of_value_zero (by rw [hvalue, hd]; exact zero_mul _), ← hzero, ← hleast]
    · have hd : d = m.shortest := if_neg hzero
      obtain ⟨hhas, hlow, hhigh⟩ := Magnitude.shortest_has hsingle (Nat.pos_of_ne_zero hzero)
      rw [hd] at hvalue hexponent
      exact Decimal.magnitude_of_has hsingle (Nat.pos_of_ne_zero hzero) (hvalue ▸ hhas)
        (by omega) (by omega)
  refine ⟨cs, d', ?_, hspelled, ?_⟩
  · rw [Scalar.text, hm]
    exact htext
  · have hsign : d'.negative = false := by cases hspelled <;> rfl
    rw [Decimal.toScalar, hmagnitude, hsign, Scalar.abs_eq_ofMagnitude hx, hm]

/-! ## Texts of formulas -/

/-- No number and no name goes on with a text. -/
def Stops (rest : List Char) : Prop :=
  ∀ c ∈ rest.head?, isNumberChar c = false ∧ c.isAlphanum = false

theorem Stops.endsBefore {rest : List Char} (h : Stops rest) (symbol : Symbol) :
    symbol.EndsBefore rest := by
  intro c hc
  cases symbol with
  | number _ => exact (h c hc).1
  | param _ | rank | rand => exact (h c hc).2
  | op _ | opening | closing => rfl

namespace Formula

/-- All numbers of a formula are finite, and its parameters count from one. -/
def Writable : Formula → Prop
  | number x => x.isFinite = true
  | param index => 1 ≤ index
  | rank | rand => True
  | neg inner => inner.Writable
  | binary _ lhs rhs => lhs.Writable ∧ rhs.Writable

instance Writable.decide : (f : Formula) → Decidable f.Writable
  | number x => inferInstanceAs (Decidable (x.isFinite = true))
  | param index => inferInstanceAs (Decidable (1 ≤ index))
  | rank | rand => .isTrue trivial
  | neg inner => Writable.decide inner
  | binary _ lhs rhs => @instDecidableAnd _ _ (Writable.decide lhs) (Writable.decide rhs)

/-- No number of a formula has a sign. -/
def Unsigned : Formula → Prop
  | number x => x.isNegative = false
  | param _ | rank | rand => True
  | neg inner => inner.Unsigned
  | binary _ lhs rhs => lhs.Unsigned ∧ rhs.Unsigned

/-- How many signs and parentheses are open in the text of a formula at the same time. -/
def nesting : Formula → Nat
  | number x => if x.isNegative then 1 else 0
  | param _ | rank | rand => 0
  | neg inner => 2 + inner.nesting
  | binary _ lhs rhs => 1 + max lhs.nesting rhs.nesting

/-- A formula as its text is read: a negative number is a sign and the size of the number. -/
def asRead : Formula → Formula
  | number x => if x.isNegative then neg (number x.abs) else number x
  | param index => param index
  | rank => rank
  | rand => rand
  | neg inner => neg inner.asRead
  | binary op lhs rhs => binary op lhs.asRead rhs.asRead

/-- A text spells tokens that make up a formula, wherever it stands before a text that it does not go
on with. In it `levels` signs and parentheses are open at the same time. -/
def Writes (level : Level) (cs : List Char) (f : Formula) (levels : Nat) : Prop :=
  ∀ (depth offset : Nat) (rest : List Char) (tokens : List Token), Stops rest →
    Token.Spelled (offset + utf8Length cs) rest tokens →
    ∃ taken openings, Token.Spelled offset (cs ++ rest) (taken ++ tokens) ∧
      Derives level depth taken f openings ∧ (∀ o ∈ openings, o.depth ≤ depth + levels) ∧
      (0 < levels → ∃ o ∈ openings, o.depth = depth + levels)

section Writes

variable {cs cs' : List Char} {f g : Formula} {levels levels' : Nat}

/-- A symbol that is an operand on its own. -/
theorem Writes.symbol {symbol : Symbol} (hs : symbol.Spelled cs)
    (hf : ∀ depth offset, Derives .operand depth [⟨symbol, offset⟩] f []) :
    Writes .operand cs f 0 := by
  intro depth offset rest tokens hrest htokens
  exact ⟨_, [], .token hs (hrest.endsBefore symbol) htokens, hf depth offset,
    List.forall_mem_nil _, fun h => absurd h (Nat.lt_irrefl 0)⟩

/-- A character that is a symbol on its own, before what a text spells. -/
theorem spelled_cons {c : Char} {symbol : Symbol} {offset : Nat} {rest : List Char}
    {tokens : List Token} (hc : Symbol.ofChar? c = some symbol)
    (h : Token.Spelled (offset + utf8Length [c]) rest tokens) :
    Token.Spelled offset (c :: rest) (⟨symbol, offset⟩ :: tokens) :=
  .token (Symbol.spelled_ofChar? hc) (Symbol.endsBefore_ofChar? hc rest) h

/-- One more sign or parenthesis is open around what is opened inside. -/
theorem opened_around {depth levels : Nat} {openings : List Opening} (offset : Nat)
    (hle : ∀ o ∈ openings, o.depth ≤ depth + 1 + levels)
    (hdeepest : 0 < levels → ∃ o ∈ openings, o.depth = depth + 1 + levels) :
    (∀ o ∈ (⟨offset, depth + 1⟩ :: openings : List Opening), o.depth ≤ depth + (1 + levels)) ∧
      ∃ o ∈ (⟨offset, depth + 1⟩ :: openings : List Opening), o.depth = depth + (1 + levels) := by
  rw [← Nat.add_assoc]
  refine ⟨List.forall_mem_cons.2 ⟨Nat.le_add_right _ _, hle⟩, ?_⟩
  rcases Nat.eq_zero_or_pos levels with rfl | hpos
  · exact ⟨_, List.mem_cons_self, rfl⟩
  · obtain ⟨o, ho, hdepth⟩ := hdeepest hpos
    exact ⟨o, List.mem_cons_of_mem _ ho, hdepth⟩

/-- A minus before an operand. -/
theorem Writes.minus (h : Writes .operand cs f levels) :
    Writes .operand ('-' :: cs) (.neg f) (1 + levels) := by
  intro depth offset rest tokens hrest htokens
  have hbehind : Token.Spelled (offset + utf8Length ['-'] + utf8Length cs) rest tokens := by
    rwa [Nat.add_assoc, ← utf8Length_append]
  obtain ⟨taken, openings, hspelled, hd, hle, hdeepest⟩ := h (depth + 1) _ rest tokens hrest hbehind
  obtain ⟨hle, hdeepest⟩ := opened_around offset hle hdeepest
  exact ⟨⟨.op .sub, offset⟩ :: taken, _, spelled_cons rfl hspelled, .minus hd, hle,
    fun _ => hdeepest⟩

/-- A sum in parentheses. -/
theorem Writes.parentheses (h : Writes .sum cs f levels) :
    Writes .operand ('(' :: (cs ++ [')'])) f (1 + levels) := by
  intro depth offset rest tokens hrest htokens
  have hbehind : Token.Spelled (offset + utf8Length ['('] + utf8Length cs + utf8Length [')'])
      rest tokens := by
    rwa [Nat.add_assoc, Nat.add_assoc, ← utf8Length_append, ← utf8Length_append]
  have hclosing := spelled_cons (c := ')') rfl hbehind
  have hstops : Stops (')' :: rest) := by
    intro c hc
    cases hc
    exact ⟨rfl, rfl⟩
  obtain ⟨taken, openings, hspelled, hd, hle, hdeepest⟩ := h (depth + 1) _ _ _ hstops hclosing
  obtain ⟨hle, hdeepest⟩ := opened_around offset hle hdeepest
  have hwhole : Token.Spelled offset ('(' :: (cs ++ [')']) ++ rest) (⟨.opening, offset⟩ ::
      (taken ++ [⟨.closing, offset + utf8Length ['('] + utf8Length cs⟩]) ++ tokens) := by
    simpa using spelled_cons (c := '(') rfl hspelled
  exact ⟨_, _, hwhole, .parentheses hd, hle, fun _ => hdeepest⟩

theorem Writes.sum (h : Writes .operand cs f levels) : Writes .sum cs f levels := by
  intro depth offset rest tokens hrest htokens
  obtain ⟨taken, openings, hspelled, hd, hopen⟩ := h depth offset rest tokens hrest htokens
  exact ⟨taken, openings, hspelled, .product (.operand hd), hopen⟩

theorem derives_binary {depth offset : Nat} {op : BinaryOp} {taken taken' : List Token}
    {openings openings' : List Opening} (h : Derives .operand depth taken f openings)
    (h' : Derives .operand depth taken' g openings') :
    Derives .sum depth (taken ++ ⟨.op op, offset⟩ :: taken') (.binary op f g)
      (openings ++ openings') := by
  cases op with
  | add => exact .term (.inl rfl) (.product (.operand h)) (.operand h')
  | sub => exact .term (.inr rfl) (.product (.operand h)) (.operand h')
  | mul => exact .product (.factor (.inl rfl) (.operand h) h')
  | div => exact .product (.factor (.inr (.inl rfl)) (.operand h) h')
  | rem => exact .product (.factor (.inr (.inr rfl)) (.operand h) h')

/-- Two operands around an operator, with a blank on each side of it. -/
theorem Writes.binary (op : BinaryOp) (h : Writes .operand cs f levels)
    (h' : Writes .operand cs' g levels') :
    Writes .sum (cs ++ ' ' :: op.sign :: ' ' :: cs') (.binary op f g) (max levels levels') := by
  intro depth offset rest tokens hrest htokens
  -- The text is split from its end: first the right operand, then the sign, then the left operand.
  have hbehind : Token.Spelled (offset + utf8Length cs + utf8Length [' '] + utf8Length [op.sign]
      + utf8Length [' '] + utf8Length cs') rest tokens := by
    have hlength : utf8Length (cs ++ ' ' :: op.sign :: ' ' :: cs') = utf8Length cs
        + (utf8Length [' '] + (utf8Length [op.sign] + (utf8Length [' '] + utf8Length cs'))) := by
      simp only [← utf8Length_append, List.cons_append, List.nil_append]
    simpa only [Nat.add_assoc, hlength] using htokens
  obtain ⟨taken', openings', hspelled', hd', hle', hdeepest'⟩ :=
    h' depth _ rest tokens hrest hbehind
  have hsign : Symbol.ofChar? op.sign = some (.op op) := by cases op <;> rfl
  have hoperator := Token.Spelled.blank (c := ' ') rfl
    (spelled_cons hsign (Token.Spelled.blank (c := ' ') rfl hspelled'))
  have hstops : Stops (' ' :: op.sign :: ' ' :: (cs' ++ rest)) := by
    intro c hc
    cases hc
    exact ⟨rfl, rfl⟩
  obtain ⟨taken, openings, hspelled, hd, hle, hdeepest⟩ := h depth offset _ _ hstops hoperator
  have hwhole : Token.Spelled offset (cs ++ ' ' :: op.sign :: ' ' :: cs' ++ rest)
      (taken ++ ⟨.op op, offset + utf8Length cs + ' '.utf8Size⟩ :: taken' ++ tokens) := by
    simpa using hspelled
  refine ⟨_, _, hwhole, derives_binary hd hd', ?_, fun hpos => ?_⟩
  · intro o ho
    rcases List.mem_append.1 ho with ho | ho
    · exact Nat.le_trans (hle o ho) (by omega)
    · exact Nat.le_trans (hle' o ho) (by omega)
  · rcases Nat.le_total levels levels' with hmax | hmax
    · rw [Nat.max_eq_right hmax] at hpos ⊢
      obtain ⟨o, ho, hdepth⟩ := hdeepest' hpos
      exact ⟨o, List.mem_append_right _ ho, hdepth⟩
    · rw [Nat.max_eq_left hmax] at hpos ⊢
      obtain ⟨o, ho, hdepth⟩ := hdeepest hpos
      exact ⟨o, List.mem_append_left _ ho, hdepth⟩

end Writes

/-- The text of a formula spells the formula as it is read. -/
theorem writes_text {f : Formula} (hf : f.Writable) :
    Writes .operand f.text.toList f.asRead f.nesting := by
  induction f with
  | number x =>
    obtain ⟨cs, d, htext, hspelled, hd⟩ := Scalar.text_spelled hf
    have hnumber : Writes .operand cs (.number x.abs) 0 :=
      hd ▸ .symbol (.number hspelled) fun _ _ => .number
    -- A negative literal is written with a sign, and is read as one.
    rw [text, asRead, nesting, htext]
    cases hn : x.isNegative with
    | true => exact hnumber.minus
    | false =>
      rw [Scalar.abs_of_nonneg hf hn] at hnumber
      exact hnumber
  | param index =>
    have htext : (param index).text.toList = '$' :: Nat.toDigits 10 index.toNat := by
      simp [text]
    have hdigits : ∀ c ∈ Nat.toDigits 10 index.toNat, c.isDigit = true := fun c hc =>
      Nat.isDigit_of_mem_toDigits (by decide) (by decide) hc
    have hread := readDigits_toDigits index.toNat
    have hpos : 1 ≤ index.toNat := UInt64.le_iff_toNat_le.1 hf
    have hnamed : Symbol.Named (Nat.toDigits 10 index.toNat) (.param index) := by
      have h := Symbol.Named.param Nat.toDigits_ne_nil hdigits (by rwa [hread])
        (by rw [hread]; exact index.toNat_lt)
      rwa [hread, UInt64.ofNat_toNat] at h
    have halphanum : ∀ c ∈ Nat.toDigits 10 index.toNat, c.isAlphanum = true := fun c hc => by
      simp [Char.isAlphanum, hdigits c hc]
    rw [htext]
    exact .symbol (.name halphanum hnamed) fun _ _ => .param
  | rank => exact .symbol (.name (List.all_eq_true.1 rfl) .rank) fun _ _ => .rank
  | rand => exact .symbol (.name (List.all_eq_true.1 rfl) .rand) fun _ _ => .rand
  | neg inner ih =>
    -- The sign and the parenthesis are one level each.
    have htext : (neg inner).text.toList = '-' :: '(' :: (inner.text.toList ++ [')']) := by
      simp [text]
    rw [htext, nesting, show 2 + inner.nesting = 1 + (1 + inner.nesting) by omega]
    exact (ih hf).sum.parentheses.minus
  | binary op lhs rhs ihl ihr =>
    have htext : (Formula.binary op lhs rhs).text.toList
        = '(' :: (lhs.text.toList ++ ' ' :: op.sign :: ' ' :: rhs.text.toList ++ [')']) := by
      simp [text]
    rw [htext]
    exact (Writes.binary op (ihl hf.1) (ihr hf.2)).parentheses

end Formula

end Barrage
