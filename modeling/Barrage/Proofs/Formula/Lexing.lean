import Barrage.Except
import Barrage.Formula.Bytes
import Barrage.Formula.Misspelled
import Barrage.Proofs.Formula.Reading

/-!
# Errors in formulas point into the text

* `Token.Spelled.increasing`, `Token.Spelled.exists_text`: the tokens of a text stand in it one behind the
  other, each at its offset.
* `FormulaError.Misplaced`: an error in the order of tokens, which points at one of them or at their end.
* `Formula.Blames`: a reader takes tokens off the front, or its error is one in their order;
  `Formula.blames_operand`, `Formula.misplaced_of_ofTokens`.
* `Token.scan_lossless`: a text is split by its bytes with nothing lost, or its first misspelling is the
  error, whatever the order of the tokens is.
-/

namespace Barrage

/-! ## Tokens in a text -/

namespace Token

variable {offset : Nat} {cs : List Char} {tokens : List Token}

theorem Spelled.le_offset (h : Spelled offset cs tokens) :
    ∀ token ∈ tokens, offset ≤ token.offset := by
  induction h with
  | nil => exact List.forall_mem_nil _
  | blank _ _ ih => exact fun token ht => Nat.le_trans (Nat.le_add_right _ _) (ih token ht)
  | token _ _ _ ih =>
    exact List.forall_mem_cons.2
      ⟨Nat.le_refl _, fun token ht => Nat.le_trans (Nat.le_add_right _ _) (ih token ht)⟩

/-- Tokens are in the order of their texts, which are not empty. -/
theorem Spelled.increasing (h : Spelled offset cs tokens) :
    tokens.Pairwise fun t t' => t.offset < t'.offset := by
  induction h with
  | nil => exact .nil
  | blank _ _ ih => exact ih
  | @token offset text rest symbol tokens hs _ h ih =>
    refine .cons (fun token ht => ?_) ih
    have hsize := utf8Length_pos hs.ne_nil
    have hle := h.le_offset token ht
    show offset < token.offset
    omega

/-- The text of a token starts at its offset, and ends where it has to. -/
theorem Spelled.exists_text (h : Spelled offset cs tokens) : ∀ token ∈ tokens,
    ∃ before text after, cs = before ++ text ++ after ∧ token.offset = offset + utf8Length before ∧
      token.symbol.Spelled text ∧ token.symbol.EndsBefore after := by
  induction h with
  | nil => exact List.forall_mem_nil _
  | @blank offset c rest tokens _ _ ih =>
    intro token ht
    obtain ⟨before, text, after, rfl, hoffset, hs, hend⟩ := ih token ht
    exact ⟨c :: before, text, after, rfl, by rw [hoffset, Nat.add_assoc, utf8Length], hs, hend⟩
  | @token offset text rest symbol tokens hs hend _ ih =>
    refine List.forall_mem_cons.2 ⟨⟨[], text, rest, rfl, rfl, hs, hend⟩, fun token ht => ?_⟩
    obtain ⟨before, text', after, rfl, hoffset, hs, hend⟩ := ih token ht
    refine ⟨text ++ before, text', after, by simp, ?_, hs, hend⟩
    rw [hoffset, Nat.add_assoc, utf8Length_append]

end Token

/-! ## Errors in the order of tokens -/

/-- An error in the order of tokens, at one of them or at their end. -/
inductive FormulaError.Misplaced (tokens : List Token) : FormulaError → Prop where
  | ended : Misplaced tokens .unexpectedEnd
  | token {token : Token} (h : token ∈ tokens) : Misplaced tokens (.unexpectedToken token.offset)
  | deep {token : Token} (h : token ∈ tokens) : Misplaced tokens (.tooDeep token.offset)

theorem FormulaError.Misplaced.mono {tokens tokens' : List Token} {e : FormulaError}
    (h : Misplaced tokens e) (hsub : tokens ⊆ tokens') : Misplaced tokens' e := by
  cases h with
  | ended => exact .ended
  | token h => exact .token (hsub h)
  | deep h => exact .deep (hsub h)

namespace Formula

/-- What a reader makes of tokens: it leaves the last of them, or its error is in their order. -/
abbrev ReadsOff (tokens : List Token) (r : Except FormulaError (Formula × List Token)) : Prop :=
  Except.Meets (fun read => read.2 <:+ tokens) (FormulaError.Misplaced tokens) r

/-- A reader whose errors are in the order of the tokens. -/
def Blames (reader : Reader) : Prop := ∀ tokens, ReadsOff tokens (reader tokens)

variable {reader : Reader} {tokens tokens' : List Token}

theorem ReadsOff.mono {r : Except FormulaError (Formula × List Token)} (h : ReadsOff tokens r)
    (hsuffix : tokens <:+ tokens') : ReadsOff tokens' r := by
  cases r with
  | ok read => exact List.IsSuffix.trans h hsuffix
  | error e => exact FormulaError.Misplaced.mono h hsuffix.subset

/-- A reader goes on with what another one leaves. -/
theorem ReadsOff.bind {r : Except FormulaError (Formula × List Token)}
    {next : Formula × List Token → Except FormulaError (Formula × List Token)} (h : ReadsOff tokens r)
    (hnext : ∀ read, ReadsOff read.2 (next read)) : ReadsOff tokens (r >>= next) :=
  Except.Meets.bind h fun read hread => (hnext read).mono hread

theorem blames_chain (joins : BinaryOp → Bool) (h : Blames reader) (rounds : Nat) (lhs : Formula) :
    Blames (chain joins reader rounds lhs) := by
  induction rounds generalizing lhs with
  | zero => exact fun tokens => List.suffix_refl tokens
  | succ rounds ih =>
    intro tokens
    unfold chain
    split
    · next rounds' op offset rest hrounds =>
      obtain rfl := Nat.succ.inj hrounds
      split
      · exact ((h rest).bind fun read => ih _ read.2).mono (List.suffix_cons _ _)
      · exact List.suffix_refl _
    · exact List.suffix_refl _

theorem blames_leftAssociated (joins : BinaryOp → Bool) (h : Blames reader) :
    Blames (leftAssociated joins reader) :=
  fun tokens => (h tokens).bind fun read => blames_chain joins h _ read.1 read.2

theorem blames_sum (h : Blames reader) : Blames (sum reader) :=
  blames_leftAssociated _ (blames_leftAssociated _ h)

theorem blames_close (inner : Formula) : Blames (close inner) := by
  intro tokens
  unfold close
  split
  · exact List.suffix_cons _ _
  · exact .token List.mem_cons_self
  · exact .ended

/-- An operand blames a token of its own, given that operands inside one more sign or parenthesis do. -/
theorem blames_of_inner {levels : Nat}
    (hinner : ∀ {levels'}, levels = levels' + 1 → Blames (operand levels')) :
    Blames (operand levels) := by
  intro tokens
  obtain _ | ⟨⟨symbol, offset⟩, tokens⟩ := tokens
  · cases levels <;> exact .ended
  have hsuffix : tokens <:+ ⟨symbol, offset⟩ :: tokens := List.suffix_cons _ _
  rw [operand_cons]
  split
  · exact hsuffix
  · exact hsuffix
  · exact hsuffix
  · exact hsuffix
  · refine ReadsOff.mono ?_ hsuffix
    exact (hinner rfl tokens).bind fun read => List.suffix_refl read.2
  · exact (hinner rfl tokens).mono hsuffix
  · refine ReadsOff.mono ?_ hsuffix
    exact (blames_sum (hinner rfl) tokens).bind fun read => blames_close read.1 read.2
  · exact .deep List.mem_cons_self
  · exact .deep List.mem_cons_self
  · exact .deep List.mem_cons_self
  · exact .token List.mem_cons_self
  · exact .token List.mem_cons_self

theorem blames_operand (levels : Nat) : Blames (operand levels) := by
  induction levels with
  | zero => exact blames_of_inner fun hlevels => by cases hlevels
  | succ levels ih => exact blames_of_inner fun hlevels => Nat.succ.inj hlevels ▸ ih

/-- Tokens that are no formula have an error in their order. -/
theorem misplaced_of_ofTokens {e : FormulaError} (h : ofTokens tokens = .error e) :
    e.Misplaced tokens := by
  have hsum : ReadsOff tokens (sum (operand formulaLevels) tokens) :=
    blames_sum (blames_operand formulaLevels) tokens
  rw [ofTokens] at h
  cases hread : sum (operand formulaLevels) tokens with
  | error e' =>
    rw [hread] at h
    cases h
    exact hsum.error hread
  | ok read =>
    obtain ⟨f, rest⟩ := read
    rw [hread] at h
    cases rest with
    | nil => cases h
    | cons token rest =>
      cases h
      exact .token ((hsum.ok hread).subset List.mem_cons_self)

end Formula

/-! ## Texts -/

namespace Token

/-- A text is split into tokens by its bytes, and no slice begins or ends inside a character. Tokens stand
in the text one behind the other, at the starts of characters, and the rest of the text is blanks; numbers
and names are as long as they can be. A text that does not split is misspelled at the start of a character
before which it does, and this comes before any error in the order of tokens, which points at a token. -/
theorem scan_lossless (source : String) :
    scanBytes? source 0 = some (scan source) ∧
    (∀ tokens, scan source = .ok tokens →
      Spelled 0 source.toList tokens ∧ tokens.Pairwise (fun t t' => t.offset < t'.offset) ∧
      ∀ token ∈ tokens, ∃ before text after : String, source = before ++ text ++ after ∧
        token.offset = before.utf8ByteSize ∧ String.Pos.Raw.IsValid source ⟨token.offset⟩ ∧
        token.symbol.Spelled text.toList ∧ token.symbol.EndsBefore after.toList) ∧
    (∀ e, scan source = .error e →
      (∃ before rest : String, source = before ++ rest ∧
        String.Pos.Raw.IsValid source ⟨before.utf8ByteSize⟩ ∧
        before.utf8ByteSize < source.utf8ByteSize ∧ (∃ tokens, scan before = .ok tokens) ∧
        e.Misspelled before.utf8ByteSize rest.toList) ∧
      Formula.parse source = .error e) ∧
    (∀ e, Formula.parse source = .error e →
      scan source = .error e ∨ ∃ tokens, scan source = .ok tokens ∧ e.Misplaced tokens) := by
  refine ⟨scanBytes?_eq source, fun tokens h => ?_, fun e h => ⟨?_, ?_⟩, fun e h => ?_⟩
  · -- The tokens spell the text, and what they spell is where they say.
    have hspelled := scan_eq_ok_iff.1 h
    refine ⟨hspelled, hspelled.increasing, fun token ht => ?_⟩
    obtain ⟨before, text, after, hsource, hoffset, hs, hend⟩ := hspelled.exists_text token ht
    obtain rfl := String.ofList_eq.2 hsource.symm
    rw [Nat.zero_add] at hoffset
    refine ⟨String.ofList before, String.ofList text, String.ofList after, ?_, ?_, ?_, ?_, ?_⟩
    · rw [String.ofList_append, String.ofList_append]
    · rw [hoffset, utf8ByteSize_ofList]
    · rw [hoffset, List.append_assoc]
      exact isValid_append before (text ++ after)
    · rwa [String.toList_ofList]
    · rwa [String.toList_ofList]
  · -- The text before the error is spelled by tokens, so it splits.
    obtain ⟨before, rest, tokens, hsource, hspelled, hwrong⟩ := exists_of_scanFrom_error h
    obtain rfl := String.ofList_eq.2 hsource.symm
    rw [Nat.zero_add] at hwrong
    refine ⟨String.ofList before, String.ofList rest, String.ofList_append, ?_, ?_, ⟨tokens, ?_⟩, ?_⟩
    · rw [utf8ByteSize_ofList]
      exact isValid_append before rest
    · rw [utf8ByteSize_ofList, utf8ByteSize_ofList, utf8Length_append]
      exact Nat.lt_add_of_pos_right (utf8Length_pos hwrong.ne_nil)
    · rw [scan_eq_ok_iff, String.toList_ofList]
      exact hspelled
    · rw [utf8ByteSize_ofList, String.toList_ofList]
      exact hwrong
  · rw [Formula.parse, h]
    rfl
  · -- The parser sees a text only if it splits.
    cases hscan : scan source with
    | error e' =>
      rw [Formula.parse, hscan] at h
      cases h
      exact .inl rfl
    | ok tokens =>
      rw [Formula.parse, hscan] at h
      exact .inr ⟨tokens, rfl, Formula.misplaced_of_ofTokens h⟩

/-- A sum; a dollar sign with no name before a longer character, which comes before the parenthesis that is
not closed; and two names without an operator. -/
theorem scan_lossless_parameters :
    (scan "$2 + $12" = .ok [⟨.param 2, 0⟩, ⟨.op .add, 3⟩, ⟨.param 12, 5⟩] ∧
      Spelled 0 "$2 + $12".toList [⟨.param 2, 0⟩, ⟨.op .add, 3⟩, ⟨.param 12, 5⟩]) ∧
    (scan "($1 $é" = .error (.invalidParam "" 4) ∧
      Formula.parse "($1 $é" = .error (.invalidParam "" 4)) ∧
    (Formula.parse "($1 $2" = .error (.unexpectedToken 4) ∧
      ∃ tokens, scan "($1 $2" = .ok tokens ∧
        FormulaError.Misplaced tokens (.unexpectedToken 4)) := by
  have hsum : scan "$2 + $12" = .ok [⟨.param 2, 0⟩, ⟨.op .add, 3⟩, ⟨.param 12, 5⟩] := by
    rw [show "$2 + $12" = String.ofList ['$', '2', ' ', '+', ' ', '$', '1', '2'] from rfl,
      scan_ofList]
    decide +kernel
  have hdollar : scan "($1 $é" = .error (.invalidParam "" 4) := by
    rw [show "($1 $é" = String.ofList ['(', '$', '1', ' ', '$', 'é'] from rfl, scan_ofList]
    decide +kernel
  have hnames : scan "($1 $2" = .ok [⟨.opening, 0⟩, ⟨.param 1, 1⟩, ⟨.param 2, 4⟩] := by
    rw [show "($1 $2" = String.ofList ['(', '$', '1', ' ', '$', '2'] from rfl, scan_ofList]
    decide +kernel
  have hparse : Formula.parse "($1 $2" = .error (.unexpectedToken 4) := by
    rw [Formula.parse, hnames]
    rfl
  refine ⟨⟨hsum, ?_⟩, ⟨hdollar, ?_⟩, hparse, ?_⟩
  · exact ((scan_lossless "$2 + $12").2.1 _ hsum).1
  · exact ((scan_lossless "($1 $é").2.2.1 _ hdollar).2
  · refine ((scan_lossless "($1 $2").2.2.2 _ hparse).resolve_left fun h => ?_
    rw [hnames] at h
    cases h

end Token

end Barrage
