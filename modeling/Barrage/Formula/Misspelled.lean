import Barrage.Formula.Spelling

/-!
# Misspelled formulas

What is wrong with a text that does not split into tokens, and where.

* `FormulaError.Misspelled`: the error at a place where a text goes on with neither a blank nor a symbol.
* `Token.exists_of_scanFrom_error`: a text that does not split into tokens is misspelled at some place, and
  what is before this place splits into tokens.
-/

namespace Barrage

/-- What is wrong with characters at an offset that start with neither a blank nor the text of a symbol.
A run of characters is as long as it can be. -/
inductive FormulaError.Misspelled (offset : Nat) : List Char → FormulaError → Prop where
  | char {c : Char} {rest : List Char} (hblank : isFormulaBlank c = false)
    (hnone : ∀ (symbol : Symbol) more, ¬ symbol.Spelled (c :: more)) :
    Misspelled offset (c :: rest) (.unexpectedChar c offset)
  | number {run rest : List Char} (hne : run ≠ []) (hrun : ∀ c ∈ run, isNumberChar c = true)
    (hend : ∀ c ∈ rest.head?, isNumberChar c = false) (hnone : ∀ d, ¬ Decimal.Spelled run d) :
    Misspelled offset (run ++ rest) (.invalidNumber (String.ofList run) offset)
  | param {name rest : List Char} (hname : ∀ c ∈ name, c.isAlphanum = true)
    (hend : ∀ c ∈ rest.head?, c.isAlphanum = false)
    (hnone : ∀ symbol, ¬ Symbol.Named name symbol) :
    Misspelled offset ('$' :: (name ++ rest)) (.invalidParam (String.ofList name) offset)

theorem FormulaError.Misspelled.ne_nil {offset : Nat} {cs : List Char} {e : FormulaError}
    (h : Misspelled offset cs e) : cs ≠ [] := by
  cases h with
  | char _ _ | param _ _ _ => exact List.cons_ne_nil _ _
  | number hne _ _ _ => exact List.append_ne_nil_of_left_ne_nil hne _

/-- The text of a symbol starts with a character that is read as the start of one. -/
theorem Symbol.Spelled.start {symbol : Symbol} {c : Char} {more : List Char}
    (h : symbol.Spelled (c :: more)) :
    isNumberChar c = true ∨ c = '$' ∨ (ofChar? c).isSome = true := by
  generalize htext : c :: more = text at h
  cases h with
  | number h => exact .inl ((htext ▸ h).all c List.mem_cons_self)
  | name _ _ => exact .inr (.inl (List.cons.inj htext).1)
  | op op =>
    obtain ⟨rfl, -⟩ := List.cons.inj htext
    exact .inr (.inr (by cases op <;> rfl))
  | opening | closing =>
    obtain ⟨rfl, -⟩ := List.cons.inj htext
    exact .inr (.inr rfl)

section Lexemes

variable {offset : Nat} {c : Char} {rest : List Char} {e : FormulaError}

theorem FormulaError.Misspelled.of_number (hnumber : isNumberChar c = true)
    (hnone : Decimal.ofDigitsAndPoint? (c :: rest.takeWhile isNumberChar) = none) :
    Misspelled offset (c :: rest)
      (.invalidNumber (String.ofList (c :: rest.takeWhile isNumberChar)) offset) := by
  have hrun : ∀ x ∈ c :: rest.takeWhile isNumberChar, isNumberChar x = true :=
    List.forall_mem_cons.2 ⟨hnumber, fun x hx => List.mem_takeWhile_imp hx⟩
  have hno (d : Decimal) : ¬ Decimal.Spelled (c :: rest.takeWhile isNumberChar) d := by
    intro hd
    rw [(Decimal.ofDigitsAndPoint?_eq_some_iff hrun).2 hd] at hnone
    cases hnone
  have hend := endsBefore_dropWhile isNumberChar rest
  have hsplit := @Misspelled.number offset _ _ (List.cons_ne_nil _ _) hrun hend hno
  rwa [List.cons_append, List.takeWhile_append_dropWhile] at hsplit

theorem FormulaError.Misspelled.of_name
    (hnone : Symbol.ofName? (rest.takeWhile Char.isAlphanum) = none) :
    Misspelled offset ('$' :: rest)
      (.invalidParam (String.ofList (rest.takeWhile Char.isAlphanum)) offset) := by
  have hname : ∀ x ∈ rest.takeWhile Char.isAlphanum, x.isAlphanum = true :=
    fun x hx => List.mem_takeWhile_imp hx
  have hno (symbol : Symbol) : ¬ Symbol.Named (rest.takeWhile Char.isAlphanum) symbol := by
    intro hsymbol
    rw [Symbol.ofName?_eq_some_iff.2 hsymbol] at hnone
    cases hnone
  have hend := endsBefore_dropWhile Char.isAlphanum rest
  have hsplit := @Misspelled.param offset _ _ hname hend hno
  rwa [List.takeWhile_append_dropWhile] at hsplit

/-- Where no lexeme is read, the text is misspelled. -/
theorem Lexeme.misspelled_of_read (h : read offset c rest = .error e) :
    e.Misspelled offset (c :: rest) := by
  unfold read at h
  split at h
  · cases h
  next hblank =>
  split at h
  · next hnumber =>
    simp only at h
    split at h
    · cases h
    · next hnone =>
      cases h
      exact .of_number hnumber hnone
  next hnumber =>
  split at h
  · next hdollar =>
    subst hdollar
    simp only at h
    split at h
    · cases h
    · next hnone =>
      cases h
      exact .of_name hnone
  next hdollar =>
  split at h
  · cases h
  · next hnone =>
    cases h
    -- A lexeme that began here would be a number, a name or one of the characters tried above.
    refine .char (Bool.not_eq_true _ ▸ hblank) fun symbol more hs => ?_
    rcases hs.start with hc | hc | hc
    · exact hnumber hc
    · exact hdollar hc
    · rw [hnone] at hc
      cases hc

end Lexemes

theorem Symbol.EndsBefore.of_append {symbol : Symbol} {cs cs' : List Char}
    (h : symbol.EndsBefore (cs ++ cs')) : symbol.EndsBefore cs := by
  cases cs with
  | nil => exact fun c hc => absurd hc (Option.not_mem_none c)
  | cons c cs => exact h

/-- A text that does not split into tokens is misspelled at a place before which it does. -/
theorem Token.exists_of_scanFrom_error {offset : Nat} {cs : List Char} {e : FormulaError}
    (h : scanFrom 0 offset cs = .error e) :
    ∃ before rest tokens, cs = before ++ rest ∧ Spelled offset before tokens ∧
      e.Misspelled (offset + utf8Length before) rest := by
  induction offset, cs using scan_induction with
  | nil offset => cases h
  | error offset c rest e' he =>
    rw [scanFrom, he] at h
    cases h
    exact ⟨[], _, [], rfl, .nil, Lexeme.misspelled_of_read he⟩
  | blank offset c rest hc ih =>
    rw [scanFrom_blank hc] at h
    obtain ⟨before, rest, tokens, rfl, hspelled, hwrong⟩ := ih h
    rw [Nat.add_assoc] at hwrong
    exact ⟨c :: before, rest, tokens, rfl, .blank hc hspelled, hwrong⟩
  | token offset text rest symbol hs hend ih =>
    rw [scanFrom_token hs hend] at h
    obtain ⟨before, rest, tokens, rfl, hspelled, hwrong⟩ := ih (Barrage.Except.map_error h)
    rw [Nat.add_assoc, ← utf8Length_append] at hwrong
    refine ⟨text ++ before, rest, _, ?_, .token hs hend.of_append hspelled, hwrong⟩
    rw [List.append_assoc]

end Barrage
