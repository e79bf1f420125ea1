import Barrage.Except
import Barrage.Formula.Grammar
import Barrage.Formula.Parse
import Barrage.Formula.Spelling

/-!
# A formula is read exactly as the grammar derives it

* `Formula.Derives.reads`: tokens that the grammar derives are read as the formula they make up, or
  up to the first sign or parenthesis with which too many are open.
* `Formula.Derives.unique`: the grammar is not ambiguous.
* `Formula.taken_of_operand`: what is read is derived.
* `Formula.parse_iff_derives`: a text is read as a formula if and only if the tokens it spells make
  that formula up and never too many signs and parentheses are open; where too many are, the first
  of these is the error.
-/

namespace Barrage.Formula

variable {limit depth levels rounds : Nat} {tokens rest : List Token} {f : Formula}
  {openings : List Opening}

/-- How an operand goes on is settled by its first token. -/
theorem operand_cons (levels : Nat) (symbol : Symbol) (offset : Nat) (tokens : List Token) :
    operand levels (⟨symbol, offset⟩ :: tokens) =
      match symbol, levels with
      | .number value, _ => .ok (.number value, tokens)
      | .param index, _ => .ok (.param index, tokens)
      | .rank, _ => .ok (.rank, tokens)
      | .rand, _ => .ok (.rand, tokens)
      | .op .sub, levels + 1 => do
        let (inner, tokens) ← operand levels tokens
        .ok (.neg inner, tokens)
      | .op .add, levels + 1 => operand levels tokens
      | .opening, levels + 1 => do
        let (inner, tokens) ← sum (operand levels) tokens
        close inner tokens
      | .op .sub, 0 | .op .add, 0 | .opening, 0 => .error (.tooDeep offset)
      | .op _, _ | .closing, _ => .error (.unexpectedToken offset) := by
  cases symbol with
  | op op => cases op <;> cases levels <;> rfl
  | number _ | param _ | rank | rand | opening | closing => cases levels <;> rfl

/-! ## Reading what was derived -/

/-- A result, unless a sign or a parenthesis before it was one too many. -/
def unlessTooDeep {α : Type} (limit : Nat) (openings : List Opening) (r : Except FormulaError α) :
    Except FormulaError α :=
  match tooDeep? limit openings with
  | some o => .error (.tooDeep o.offset)
  | none => r

@[simp] theorem unlessTooDeep_nil {α : Type} (limit : Nat) (r : Except FormulaError α) :
    unlessTooDeep limit [] r = r := rfl

theorem unlessTooDeep_append {α : Type} (limit : Nat) (openings openings' : List Opening)
    (r : Except FormulaError α) :
    unlessTooDeep limit (openings ++ openings') r
      = unlessTooDeep limit openings (unlessTooDeep limit openings' r) := by
  unfold unlessTooDeep
  rw [tooDeep?_append]
  cases tooDeep? limit openings <;> rfl

theorem unlessTooDeep_bind {α β : Type} (limit : Nat) (openings : List Opening)
    (r : Except FormulaError α) (g : α → Except FormulaError β) :
    (unlessTooDeep limit openings r >>= g) = unlessTooDeep limit openings (r >>= g) := by
  unfold unlessTooDeep
  cases tooDeep? limit openings <;> rfl

/-- An opening that is one too many hides what comes after it. -/
theorem unlessTooDeep_of_lt {α : Type} {offset : Nat} (h : limit < depth)
    (r : Except FormulaError α) :
    unlessTooDeep limit (⟨offset, depth⟩ :: openings) r = .error (.tooDeep offset) := by
  simp [unlessTooDeep, tooDeep?, h]

/-- An opening that is not one too many shows in nothing. -/
theorem unlessTooDeep_of_le {α : Type} {offset : Nat} (h : depth ≤ limit)
    (r : Except FormulaError α) :
    unlessTooDeep limit (⟨offset, depth⟩ :: openings) r = unlessTooDeep limit openings r := by
  simp [unlessTooDeep, tooDeep?, Nat.not_lt.2 h]

/-- The operators that join factors. -/
abbrev joinsFactors (op : BinaryOp) : Bool := !op.isAdditive

/-- The operators that join terms. -/
abbrev joinsTerms (op : BinaryOp) : Bool := op.isAdditive

/-- Factors joined to a product. -/
abbrev product (factor : Reader) : Reader := leftAssociated joinsFactors factor

/-- Tokens that do not start with an operator of a kind. -/
def EndsChain (joins : BinaryOp → Bool) (tokens : List Token) : Prop :=
  ∀ token ∈ tokens.head?, ∀ op, token.symbol = .op op → joins op = false

theorem chain_of_ends {joins : BinaryOp → Bool} {reader : Reader} (h : EndsChain joins rest) :
    chain joins reader rounds f rest = .ok (f, rest) := by
  unfold chain
  split
  · next op offset tokens =>
    have hop : joins op = false := h ⟨.op op, offset⟩ rfl op rfl
    simp [hop]
  · rfl

theorem endsChain_cons {joins : BinaryOp → Bool} {offset : Nat} {op : BinaryOp}
    (h : joins op = false) : EndsChain joins (⟨.op op, offset⟩ :: rest) := by
  intro token htoken op' hop
  obtain rfl := Option.some.inj htoken
  obtain rfl := Symbol.op.inj hop
  exact h

/-- A joining operator goes on with an operand; there are rounds left for what comes after it. -/
theorem chain_cons {joins : BinaryOp → Bool} (reader : Reader) {offset : Nat} {op : BinaryOp}
    (hop : joins op = true) (hrounds : (⟨.op op, offset⟩ :: tokens : List Token).length ≤ rounds) :
    ∃ rounds', tokens.length ≤ rounds' ∧
      chain joins reader rounds f (⟨.op op, offset⟩ :: tokens)
        = (reader tokens >>= fun (g, rest) => chain joins reader rounds' (.binary op f g) rest) := by
  obtain ⟨rounds', rfl⟩ : ∃ rounds', rounds = rounds' + 1 :=
    Nat.exists_eq_add_one.2 (by rw [List.length_cons] at hrounds; omega)
  refine ⟨rounds', by simpa using hrounds, ?_⟩
  rw [chain, if_pos hop]

/-- What reading tokens at a level of the grammar comes to, whatever stands behind them: what was
read, or the first opening that is one too many. A product and a sum are left open for more; a sum
for no more factors of its last product. -/
def Reads (limit : Nat) : Level → Nat → List Token → Formula → List Opening → Prop
  | .operand, depth, tokens, f, openings => ∀ rest,
    operand (limit - depth) (tokens ++ rest) = unlessTooDeep limit openings (.ok (f, rest))
  | .product, depth, tokens, f, openings => ∀ rest, ∃ rounds, rest.length ≤ rounds ∧
    product (operand (limit - depth)) (tokens ++ rest)
      = unlessTooDeep limit openings
          (chain joinsFactors (operand (limit - depth)) rounds f rest)
  | .sum, depth, tokens, f, openings => ∀ rest, EndsChain joinsFactors rest →
    ∃ rounds, rest.length ≤ rounds ∧
    sum (operand (limit - depth)) (tokens ++ rest)
      = unlessTooDeep limit openings
          (chain joinsTerms (product (operand (limit - depth))) rounds f rest)

/-- A whole product before tokens that do not go on with it. -/
theorem Reads.product_ends (h : Reads limit .product depth tokens f openings)
    (hrest : EndsChain joinsFactors rest) :
    product (operand (limit - depth)) (tokens ++ rest)
      = unlessTooDeep limit openings (.ok (f, rest)) := by
  obtain ⟨rounds, -, hread⟩ := h rest
  rw [hread, chain_of_ends hrest]

/-- A whole sum before tokens that do not go on with it. -/
theorem Reads.sum_ends (h : Reads limit .sum depth tokens f openings)
    (hfactors : EndsChain joinsFactors rest) (hterms : EndsChain joinsTerms rest) :
    sum (operand (limit - depth)) (tokens ++ rest)
      = unlessTooDeep limit openings (.ok (f, rest)) := by
  obtain ⟨rounds, -, hread⟩ := h rest hfactors
  rw [hread, chain_of_ends hterms]

/-- The first of several operands. -/
theorem leftAssociated_of_operand {joins : BinaryOp → Bool} {reader : Reader}
    (h : reader (tokens ++ rest) = unlessTooDeep limit openings (.ok (f, rest))) :
    leftAssociated joins reader (tokens ++ rest)
      = unlessTooDeep limit openings (chain joins reader rest.length f rest) := by
  rw [leftAssociated, h, unlessTooDeep_bind]
  rfl

/-- One more operand. -/
theorem chain_of_operand {joins : BinaryOp → Bool} {reader : Reader} {offset : Nat}
    {op : BinaryOp} {g : Formula} (hop : joins op = true)
    (h : reader (tokens ++ rest) = unlessTooDeep limit openings (.ok (g, rest)))
    (hrounds : (⟨.op op, offset⟩ :: (tokens ++ rest) : List Token).length ≤ rounds) :
    ∃ rounds', rest.length ≤ rounds' ∧
      chain joins reader rounds f (⟨.op op, offset⟩ :: (tokens ++ rest))
        = unlessTooDeep limit openings (chain joins reader rounds' (.binary op f g) rest) := by
  obtain ⟨rounds', hrounds', hchain⟩ := chain_cons (f := f) reader hop hrounds
  refine ⟨rounds', by rw [List.length_append] at hrounds'; omega, ?_⟩
  rw [hchain, h, unlessTooDeep_bind]
  rfl

/-- An operand that a sign or a parenthesis opens, given what is read behind it. -/
theorem operand_of_opening {offset : Nat} {inner : Nat → Except FormulaError (Formula × List Token)}
    (hzero : operand 0 tokens = .error (.tooDeep offset))
    (hsucc : ∀ levels, operand (levels + 1) tokens = inner levels)
    (hinner : depth < limit →
      inner (limit - (depth + 1)) = unlessTooDeep limit openings (.ok (f, rest))) :
    operand (limit - depth) tokens
      = unlessTooDeep limit (⟨offset, depth + 1⟩ :: openings) (.ok (f, rest)) := by
  rcases Nat.lt_or_ge depth limit with hlt | hge
  · rw [show limit - depth = limit - (depth + 1) + 1 by omega, hsucc, hinner hlt,
      unlessTooDeep_of_le hlt]
  · rw [show limit - depth = 0 by omega, hzero, unlessTooDeep_of_lt (by omega)]

/-- Tokens that the grammar derives are read as it derives them. -/
theorem Derives.reads {level : Level} (h : Derives level depth tokens f openings)
    (hdepth : depth ≤ limit) : Reads limit level depth tokens f openings := by
  -- Chains of operands are read with whatever follows them, and end where no operator joins it. The rounds
  -- that are left bound the tokens that are left, so they suffice.
  induction h with
  | number | param | rank | rand =>
    intro rest
    rw [List.singleton_append, operand_cons, unlessTooDeep_nil]
  | minus _ ih =>
    intro rest
    refine operand_of_opening rfl (fun levels => rfl) fun hlt => ?_
    show Formula.operand (limit - (_ + 1)) (_ ++ rest) >>= _ = _
    rw [ih hlt rest, unlessTooDeep_bind]
    rfl
  | plus _ ih =>
    exact fun rest => operand_of_opening rfl (fun levels => rfl) fun hlt => ih hlt rest
  | @parentheses depth offset offset' tokens f openings _ ih =>
    intro rest
    refine operand_of_opening rfl (fun levels => rfl) fun hlt => ?_
    have hclosing (joins : BinaryOp → Bool) : EndsChain joins (⟨.closing, offset'⟩ :: rest) := by
      intro token htoken op hop
      obtain rfl := Option.some.inj htoken
      cases hop
    show Formula.sum (Formula.operand (limit - (depth + 1))) (tokens ++ [_] ++ rest) >>= _ = _
    rw [List.append_assoc, List.cons_append, List.nil_append, (ih hlt).sum_ends (hclosing _) (hclosing _),
      unlessTooDeep_bind]
    rfl
  | operand _ ih =>
    exact fun rest => ⟨rest.length, le_refl _, leftAssociated_of_operand (ih hdepth rest)⟩
  | @factor depth offset op tokens tokens' f g openings openings' hop _ _ ih ih' =>
    intro rest
    have hjoins : joinsFactors op = true := by rcases hop with rfl | rfl | rfl <;> rfl
    obtain ⟨rounds, hrounds, hread⟩ := ih hdepth (⟨.op op, offset⟩ :: (tokens' ++ rest))
    obtain ⟨rounds', hrounds', hchain⟩ := chain_of_operand (f := f) hjoins (ih' hdepth rest) hrounds
    refine ⟨rounds', hrounds', ?_⟩
    rw [List.append_assoc, List.cons_append, hread, hchain, unlessTooDeep_append]
  | product _ ih =>
    exact fun rest hrest =>
      ⟨rest.length, le_refl _, leftAssociated_of_operand ((ih hdepth).product_ends hrest)⟩
  | @term depth offset op tokens tokens' f g openings openings' hop _ _ ih ih' =>
    intro rest hrest
    have hjoins : joinsTerms op = true := by rcases hop with rfl | rfl <;> rfl
    -- An operator that joins terms ends the product before it.
    have hends : EndsChain joinsFactors (⟨.op op, offset⟩ :: (tokens' ++ rest)) :=
      endsChain_cons (by simp [hjoins])
    obtain ⟨rounds, hrounds, hread⟩ := ih hdepth (⟨.op op, offset⟩ :: (tokens' ++ rest)) hends
    obtain ⟨rounds', hrounds', hchain⟩ :=
      chain_of_operand (f := f) hjoins ((ih' hdepth).product_ends hrest) hrounds
    refine ⟨rounds', hrounds', ?_⟩
    rw [List.append_assoc, List.cons_append, hread, hchain, unlessTooDeep_append]

/-- All of the tokens that make up a sum. -/
theorem Derives.sum_reads (h : Derives .sum depth tokens f openings) (hdepth : depth ≤ limit) :
    Formula.sum (Formula.operand (limit - depth)) tokens
      = unlessTooDeep limit openings (.ok (f, [])) := by
  have hends (joins : BinaryOp → Bool) : EndsChain joins [] := by
    intro token htoken
    cases htoken
  have hread := (h.reads hdepth).sum_ends (hends _) (hends _)
  rwa [List.append_nil] at hread

/-- Tokens make up one formula at most. -/
theorem Derives.unique {g : Formula} {openings' : List Opening}
    (h : Derives .sum depth tokens f openings) (h' : Derives .sum depth tokens g openings') :
    f = g := by
  -- Read with a limit that neither derivation reaches.
  let depths := (openings ++ openings').map Opening.depth
  have hdeep : ∀ o ∈ openings ++ openings', o.depth ≤ depth + depths.max?.getD 0 := fun o ho =>
    Nat.le_add_left_of_le (List.le_max?_getD_of_mem (List.mem_map_of_mem ho))
  have hread := h.sum_reads (Nat.le_add_right depth (depths.max?.getD 0))
  rw [unlessTooDeep,
    tooDeep?_eq_none_iff.2 fun o ho => hdeep o (List.mem_append_left _ ho)] at hread
  have hread' := h'.sum_reads (Nat.le_add_right depth (depths.max?.getD 0))
  rw [unlessTooDeep,
    tooDeep?_eq_none_iff.2 fun o ho => hdeep o (List.mem_append_right _ ho)] at hread'
  exact congrArg Prod.fst (Except.ok.inj (hread.symm.trans hread'))

/-! ## What is read is derived -/

/-- Tokens that a reader took off the front make up a formula, and never too many signs and
parentheses are open in them. -/
def Taken (limit : Nat) (level : Level) (depth : Nat) (tokens : List Token) (f : Formula)
    (rest : List Token) : Prop :=
  ∃ taken openings, tokens = taken ++ rest ∧ Derives level depth taken f openings ∧
    ∀ o ∈ openings, o.depth ≤ limit

/-- A chain that was read ended, or went on with a joining operator and an operand. -/
theorem chain_ok {joins : BinaryOp → Bool} {reader : Reader} {lhs : Formula}
    (h : chain joins reader rounds lhs tokens = .ok (f, rest)) :
    (f = lhs ∧ rest = tokens) ∨
    ∃ rounds' op offset tokens' g rest', rounds = rounds' + 1 ∧
      tokens = ⟨.op op, offset⟩ :: tokens' ∧ joins op = true ∧ reader tokens' = .ok (g, rest') ∧
      chain joins reader rounds' (.binary op lhs g) rest' = .ok (f, rest) := by
  have hended {lhs : Formula} {tokens : List Token}
      (h : Except.ok (ε := FormulaError) (lhs, tokens) = .ok (f, rest)) :
      f = lhs ∧ rest = tokens := by
    cases h
    exact ⟨rfl, rfl⟩
  unfold chain at h
  split at h
  · next rounds' op offset tokens' =>
    split at h
    · next hop =>
      obtain ⟨⟨g, rest'⟩, hg, h⟩ := Except.bind_ok h
      exact .inr ⟨rounds', op, offset, tokens', g, rest', rfl, rfl, hop, hg, h⟩
    · exact .inl (hended h)
  · exact .inl (hended h)

section Chains

variable {joins : BinaryOp → Bool} {reader : Reader} {inner outer : Level}
  (hjoin : ∀ {op offset f g taken taken' openings openings'}, joins op = true →
    Derives outer depth taken f openings → Derives inner depth taken' g openings' →
    Derives outer depth (taken ++ ⟨.op op, offset⟩ :: taken') (.binary op f g)
      (openings ++ openings'))
  (hreader : ∀ {tokens f rest}, reader tokens = .ok (f, rest) →
    Taken limit inner depth tokens f rest)

include hjoin hreader

/-- What a chain goes on with belongs to what was taken before it. -/
theorem taken_of_chain {all : List Token} {lhs : Formula}
    (hbefore : Taken limit outer depth all lhs tokens)
    (h : chain joins reader rounds lhs tokens = .ok (f, rest)) :
    Taken limit outer depth all f rest := by
  induction rounds generalizing lhs tokens with
  | zero =>
    rcases chain_ok h with ⟨rfl, rfl⟩ | ⟨_, _, _, _, _, _, hrounds, _⟩
    · exact hbefore
    · cases hrounds
  | succ rounds ih =>
    rcases chain_ok h with ⟨rfl, rfl⟩ | ⟨_, op, offset, tokens', g, rest', hrounds, rfl, hop, hg, hmore⟩
    · exact hbefore
    · obtain rfl := Nat.succ.inj hrounds
      obtain ⟨taken, openings, rfl, hf, hdepth⟩ := hbefore
      obtain ⟨taken', openings', rfl, hg, hdepth'⟩ := hreader hg
      have hmade := @hjoin op offset lhs g taken taken' openings openings' hop hf hg
      refine ih ⟨_, _, ?_, hmade, ?_⟩ hmore
      · simp
      · intro o ho
        exact (List.mem_append.1 ho).elim (hdepth o) (hdepth' o)

theorem taken_of_leftAssociated
    (hfirst : ∀ {f taken openings}, Derives inner depth taken f openings →
      Derives outer depth taken f openings)
    (h : leftAssociated joins reader tokens = .ok (f, rest)) :
    Taken limit outer depth tokens f rest := by
  obtain ⟨⟨lhs, rest'⟩, hlhs, h⟩ := Except.bind_ok h
  obtain ⟨taken, openings, htokens, hd, hdepth⟩ := hreader hlhs
  exact taken_of_chain hjoin hreader ⟨taken, openings, htokens, hfirst hd, hdepth⟩ h

end Chains

/-- A sum is read off if its factors are. -/
theorem taken_of_sum {reader : Reader}
    (hreader : ∀ {tokens f rest}, reader tokens = .ok (f, rest) →
      Taken limit .operand depth tokens f rest)
    (h : sum reader tokens = .ok (f, rest)) : Taken limit .sum depth tokens f rest := by
  have hterm {op : BinaryOp} (hop : joinsTerms op = true) : op = .add ∨ op = .sub := by
    cases op <;> simp [joinsTerms, BinaryOp.isAdditive] at hop ⊢
  have hfactor {op : BinaryOp} (hop : joinsFactors op = true) :
      op = .mul ∨ op = .div ∨ op = .rem := by
    cases op <;> simp [joinsFactors, BinaryOp.isAdditive] at hop ⊢
  refine taken_of_leftAssociated (fun hop => .term (hterm hop)) (fun h => ?_) .product h
  exact taken_of_leftAssociated (fun hop => .factor (hfactor hop)) hreader .operand h

/-- A parenthesis that was read ended. -/
theorem close_ok {g : Formula} (h : close g tokens = .ok (f, rest)) :
    f = g ∧ ∃ offset, tokens = ⟨.closing, offset⟩ :: rest := by
  unfold close at h
  split at h
  · cases h
    exact ⟨rfl, _, rfl⟩
  · cases h
  · cases h

/-- An operand is taken, given that operands inside one more sign or parenthesis are. -/
theorem taken_of_inner
    (hinner : ∀ {levels'}, levels = levels' + 1 → ∀ {tokens f rest},
      operand levels' tokens = .ok (f, rest) →
      Taken (depth + levels) .operand (depth + 1) tokens f rest)
    (h : operand levels tokens = .ok (f, rest)) :
    Taken (depth + levels) .operand depth tokens f rest := by
  obtain _ | ⟨⟨symbol, offset⟩, tokens⟩ := tokens
  · cases levels <;> cases h
  rw [operand_cons] at h
  -- A number, a parameter, the rank, a random number; a sign, a sign, a parenthesis; no operand.
  split at h
  · cases h
    exact ⟨_, [], rfl, .number, List.forall_mem_nil _⟩
  · cases h
    exact ⟨_, [], rfl, .param, List.forall_mem_nil _⟩
  · cases h
    exact ⟨_, [], rfl, .rank, List.forall_mem_nil _⟩
  · cases h
    exact ⟨_, [], rfl, .rand, List.forall_mem_nil _⟩
  · obtain ⟨⟨g, rest'⟩, hg, hf⟩ := Except.bind_ok h
    cases hf
    obtain ⟨taken, openings, rfl, hd, hdepth⟩ := hinner rfl hg
    exact ⟨_, _, rfl, .minus hd, List.forall_mem_cons.2 ⟨by simp, hdepth⟩⟩
  · obtain ⟨taken, openings, rfl, hd, hdepth⟩ := hinner rfl h
    exact ⟨_, _, rfl, .plus hd, List.forall_mem_cons.2 ⟨by simp, hdepth⟩⟩
  · obtain ⟨⟨g, rest'⟩, hg, hf⟩ := Except.bind_ok h
    obtain ⟨rfl, offset', rfl⟩ := close_ok hf
    obtain ⟨taken, openings, rfl, hd, hdepth⟩ := taken_of_sum (hinner rfl) hg
    refine ⟨⟨.opening, offset⟩ :: (taken ++ [⟨.closing, offset'⟩]), _, ?_, .parentheses hd, ?_⟩
    · simp
    · exact List.forall_mem_cons.2 ⟨by simp, hdepth⟩
  all_goals cases h

/-- An operand that was read is derived. -/
theorem taken_of_operand (depth : Nat) (h : operand levels tokens = .ok (f, rest)) :
    Taken (depth + levels) .operand depth tokens f rest := by
  induction levels generalizing depth tokens f rest with
  | zero => exact taken_of_inner (fun hlevels => by cases hlevels) h
  | succ levels ih =>
    refine taken_of_inner (fun hlevels tokens f rest h => ?_) h
    obtain rfl := Nat.succ.inj hlevels
    rw [show depth + (levels + 1) = depth + 1 + levels by omega]
    exact ih (depth + 1) h

/-! ## Texts -/

/-- All of the tokens are read as the formula that they make up, unless too many signs and
parentheses are open. -/
theorem ofTokens_of_derives (h : Derives .sum 0 tokens f openings) :
    ofTokens tokens = unlessTooDeep formulaLevels openings (.ok f) := by
  have hread := h.sum_reads (Nat.zero_le formulaLevels)
  rw [Nat.sub_zero] at hread
  rw [ofTokens, hread, unlessTooDeep_bind]
  rfl

/-- Tokens that were read as a formula make it up. -/
theorem derives_of_ofTokens (h : ofTokens tokens = .ok f) :
    ∃ openings, Derives .sum 0 tokens f openings ∧ ∀ o ∈ openings, o.depth ≤ formulaLevels := by
  obtain ⟨⟨g, rest⟩, hg, hf⟩ := Except.bind_ok h
  obtain ⟨taken, openings, htokens, hd, hdepth⟩ :=
    taken_of_sum (taken_of_operand 0) hg
  cases rest with
  | nil =>
    cases hf
    rw [List.append_nil] at htokens
    rw [Nat.zero_add] at hdepth
    exact ⟨openings, htokens ▸ hd, hdepth⟩
  | cons token rest => cases hf

/-- A text is read as a formula if and only if the tokens it spells make that formula up and never
more than `formulaLevels` signs and parentheses are open. If more are open, the error is the first
sign or parenthesis that is one too many. -/
theorem parse_iff_derives :
    (∀ (source : String) (f : Formula),
      parse source = .ok f ↔
        ∃ tokens openings, Token.Spelled 0 source.toList tokens ∧
          Derives .sum 0 tokens f openings ∧ ∀ o ∈ openings, o.depth ≤ formulaLevels) ∧
    (∀ (source : String) (tokens : List Token) (f : Formula) (openings : List Opening)
      (o : Opening), Token.Spelled 0 source.toList tokens → Derives .sum 0 tokens f openings →
      tooDeep? formulaLevels openings = some o →
      parse source = .error (.tooDeep o.offset)) := by
  refine ⟨fun source f => ⟨fun h => ?_, ?_⟩, ?_⟩
  · obtain ⟨tokens, htokens, hf⟩ := Except.bind_ok h
    obtain ⟨openings, hd, hdepth⟩ := derives_of_ofTokens hf
    exact ⟨tokens, openings, Token.scan_eq_ok_iff.1 htokens, hd, hdepth⟩
  · rintro ⟨tokens, openings, hspelled, hd, hdepth⟩
    rw [parse, Token.scan_eq_ok_iff.2 hspelled]
    show ofTokens tokens = _
    rw [ofTokens_of_derives hd, unlessTooDeep, tooDeep?_eq_none_iff.2 hdepth]
  · intro source tokens f openings o hspelled hd hdeep
    rw [parse, Token.scan_eq_ok_iff.2 hspelled]
    show ofTokens tokens = _
    rw [ofTokens_of_derives hd, unlessTooDeep, hdeep]

/-- Signs one after another each open one more level. -/
theorem Derives.signs (depth count : Nat) (h : Derives .operand (depth + count) tokens f openings) :
    ∃ f', Derives .operand depth ((List.range count).map (⟨.op .sub, ·⟩) ++ tokens) f'
      ((List.range count).map (fun i => ⟨i, depth + i + 1⟩) ++ openings) := by
  induction count generalizing tokens f openings with
  | zero => exact ⟨f, h⟩
  | succ count ih =>
    obtain ⟨f', hd⟩ := ih (@Derives.minus _ count _ _ _ h)
    exact ⟨f', by simpa [List.range_succ] using hd⟩

set_option maxRecDepth 10000 in
/-- A number under 65 signs is too deep: the last sign is one too many. -/
theorem parse_signs_tooDeep :
    ∃ tokens f openings, Token.Spelled 0 (List.replicate 65 '-' ++ ['1']) tokens ∧
      Derives .sum 0 tokens f openings ∧ tooDeep? formulaLevels openings = some ⟨64, 65⟩ ∧
      parse (String.ofList (List.replicate 65 '-' ++ ['1'])) = .error (.tooDeep 64) := by
  let one : Token := ⟨.number (Decimal.toScalar ⟨false, 1, 0⟩), 65⟩
  have hone : Derives .operand 65 [one] _ _ := .number
  obtain ⟨f, hd⟩ := Derives.signs 0 65 hone
  have hspelled : Token.Spelled 0 (List.replicate 65 '-' ++ ['1'])
      ((List.range 65).map (⟨.op .sub, ·⟩) ++ [one]) :=
    Token.spelled_of_scanFrom (by rfl)
  have hdeep : tooDeep? formulaLevels ((List.range 65).map (fun i => ⟨i, 0 + i + 1⟩) ++ [])
      = some ⟨64, 65⟩ := by rfl
  refine ⟨_, f, _, hspelled, .product (.operand hd), hdeep, ?_⟩
  exact parse_iff_derives.2 _ _ f _ _ (by rwa [String.toList_ofList]) (.product (.operand hd)) hdeep

end Barrage.Formula
