import Barrage.Except
import Barrage.Formula.Token
import Mathlib.Data.List.TakeWhile

/-!
# The spelling of formulas

What a text spells, symbol by symbol, whichever way it is read.

* `Decimal.Spelled`: digits with at most one point spell a numeral. `Decimal.exists_spelled_iff`: a run
  of digits and points does so if it has a digit and at most one point.
* `Symbol.Named`: what the name after a dollar sign stands for.
* `Symbol.Spelled`: the text of one symbol; `Symbol.continues`: the characters that would make it
  longer.
* `Token.Spelled`: a text is made of the texts of its tokens and of blanks between them, and no number
  and no name could be longer.
* `Token.scan_induction`: induction over a text by its blanks and tokens.
* `Token.scan_eq_ok_iff`: a text splits into exactly the tokens that it spells.
-/

namespace Barrage

/-- The number of bytes of a text. -/
def utf8Length : List Char → Nat
  | [] => 0
  | c :: cs => c.utf8Size + utf8Length cs

theorem utf8Length_append (cs cs' : List Char) :
    utf8Length (cs ++ cs') = utf8Length cs + utf8Length cs' := by
  induction cs with
  | nil => exact (Nat.zero_add _).symm
  | cons c cs ih => rw [List.cons_append, utf8Length, utf8Length, ih, Nat.add_assoc]

/-! ## Numerals -/

/-- The numeral that digits spell, with at most one point among them. -/
inductive Decimal.Spelled : List Char → Decimal → Prop where
  | whole {digits : List Char} (hne : digits ≠ []) (hd : ∀ c ∈ digits, c.isDigit = true) :
    Spelled digits ⟨false, readDigits digits, 0⟩
  | point {whole fraction : List Char} (hne : whole ++ fraction ≠ [])
    (hd : ∀ c ∈ whole ++ fraction, c.isDigit = true) :
    Spelled (whole ++ '.' :: fraction)
      ⟨false, readDigits (whole ++ fraction), -fraction.length⟩

/-- The character that ends a run of characters of a kind, if there is one, is not of that kind. -/
theorem not_of_dropWhile {p : Char → Bool} {cs rest : List Char} {c : Char}
    (h : cs.dropWhile p = c :: rest) : p c = false := by
  have hne : cs.dropWhile p ≠ [] := by simp [h]
  have hhead := List.head_dropWhile_not p hne
  simpa only [h, List.head_cons] using hhead

namespace Decimal

variable {cs : List Char} {d : Decimal}

theorem isNumberChar_of_isDigit {c : Char} (h : c.isDigit = true) : isNumberChar c = true := by
  simp [isNumberChar, h]

theorem not_isFormulaBlank_of_isNumberChar {c : Char} (h : isNumberChar c = true) :
    isFormulaBlank c = false := by
  rw [← Bool.not_eq_true]
  intro hb
  simp only [isFormulaBlank, Bool.or_eq_true, beq_iff_eq] at hb
  rcases hb with ((rfl | rfl) | rfl) | rfl <;> exact absurd h (by decide)

theorem Spelled.all (h : Spelled cs d) : ∀ c ∈ cs, isNumberChar c = true := by
  cases h with
  | whole _ hd => exact fun c hc => isNumberChar_of_isDigit (hd c hc)
  | point _ hd =>
    obtain ⟨hwhole, hfraction⟩ := List.forall_mem_append.1 hd
    refine List.forall_mem_append.2 ⟨fun c hc => isNumberChar_of_isDigit (hwhole c hc), ?_⟩
    exact List.forall_mem_cons.2 ⟨rfl, fun c hc => isNumberChar_of_isDigit (hfraction c hc)⟩

theorem Spelled.ne_nil (h : Spelled cs d) : cs ≠ [] := by
  cases h with
  | whole hne _ => exact hne
  | point _ _ => simp

/-- A run of digits and points is all digits, or has a first point. -/
theorem digits_or_point (hcs : ∀ c ∈ cs, isNumberChar c = true) :
    (∀ c ∈ cs, c.isDigit = true) ∨
    ∃ whole tail, cs = whole ++ '.' :: tail ∧ ∀ c ∈ whole, c.isDigit = true := by
  induction cs with
  | nil => exact .inl (List.forall_mem_nil _)
  | cons c cs ih =>
    obtain ⟨hc, hcs⟩ := List.forall_mem_cons.1 hcs
    cases hdigit : c.isDigit with
    | false =>
      obtain rfl : c = '.' := by simpa [isNumberChar, hdigit] using hc
      exact .inr ⟨[], cs, rfl, List.forall_mem_nil _⟩
    | true =>
      rcases ih hcs with hall | ⟨whole, tail, rfl, hwhole⟩
      · exact .inl (List.forall_mem_cons.2 ⟨hdigit, hall⟩)
      · exact .inr ⟨c :: whole, tail, rfl, List.forall_mem_cons.2 ⟨hdigit, hwhole⟩⟩

theorem ofDigitsAndPoint?_of_digits (hd : ∀ c ∈ cs, c.isDigit = true) :
    ofDigitsAndPoint? cs = if cs.isEmpty then none else some ⟨false, readDigits cs, 0⟩ := by
  have htake : cs.takeWhile Char.isDigit = cs := List.takeWhile_eq_self_iff.2 hd
  have hdrop : cs.dropWhile Char.isDigit = [] := List.dropWhile_eq_nil_iff.2 hd
  simp only [ofDigitsAndPoint?, htake, hdrop]

theorem ofDigitsAndPoint?_of_point {whole : List Char} (hwhole : ∀ c ∈ whole, c.isDigit = true)
    (tail : List Char) :
    ofDigitsAndPoint? (whole ++ '.' :: tail)
      = if tail.all Char.isDigit && !(whole.isEmpty && tail.isEmpty) then
          some ⟨false, readDigits (whole ++ tail), -tail.length⟩
        else none := by
  have htake : (whole ++ '.' :: tail).takeWhile Char.isDigit = whole := by
    rw [List.takeWhile_append_of_pos hwhole, List.takeWhile_cons_of_neg (by decide), List.append_nil]
  have hdrop : (whole ++ '.' :: tail).dropWhile Char.isDigit = '.' :: tail := by
    rw [List.dropWhile_append_of_pos hwhole, List.dropWhile_cons_of_neg (by decide)]
  simp only [ofDigitsAndPoint?, htake, hdrop]

/-- A run of digits and points is read as the numeral that it spells. -/
theorem ofDigitsAndPoint?_eq_some_iff (hcs : ∀ c ∈ cs, isNumberChar c = true) :
    ofDigitsAndPoint? cs = some d ↔ Spelled cs d := by
  have hok {whole tail : List Char} :
      (tail.all Char.isDigit && !(whole.isEmpty && tail.isEmpty)) = true ↔
        (∀ c ∈ tail, c.isDigit = true) ∧ whole ++ tail ≠ [] := by
    simp [List.isEmpty_eq_false_iff, or_iff_not_imp_left]
  constructor
  · intro h
    rcases digits_or_point hcs with hd | ⟨whole, tail, rfl, hwhole⟩
    · rw [ofDigitsAndPoint?_of_digits hd] at h
      split at h
      · cases h
      · next hne =>
        obtain rfl := Option.some.inj h
        exact .whole (by simpa using hne) hd
    · rw [ofDigitsAndPoint?_of_point hwhole] at h
      split at h
      · next hsome =>
        obtain rfl := Option.some.inj h
        obtain ⟨htail, hne⟩ := hok.1 hsome
        exact .point hne (List.forall_mem_append.2 ⟨hwhole, htail⟩)
      · cases h
  · intro h
    cases h with
    | whole hne hd => rw [ofDigitsAndPoint?_of_digits hd, if_neg (by simpa using hne)]
    | point hne hd =>
      obtain ⟨hwhole, hfraction⟩ := List.forall_mem_append.1 hd
      rw [ofDigitsAndPoint?_of_point hwhole, if_pos (hok.2 ⟨hfraction, hne⟩)]

/-- A run of digits and points spells a numeral if it has a digit and at most one point. -/
theorem exists_spelled_iff (hcs : ∀ c ∈ cs, isNumberChar c = true) :
    (∃ d, Spelled cs d) ↔ (∃ c ∈ cs, c.isDigit = true) ∧ cs.count '.' ≤ 1 := by
  have hnone {l : List Char} (hl : ∀ c ∈ l, c.isDigit = true) : l.count '.' = 0 :=
    List.count_eq_zero.2 fun hmem => absurd (hl _ hmem) (by decide)
  constructor
  · rintro ⟨d, h⟩
    cases h with
    | whole hne hd =>
      obtain ⟨c, hc⟩ := List.exists_mem_of_ne_nil _ hne
      exact ⟨⟨c, hc, hd c hc⟩, by simp [hnone hd]⟩
    | @point whole fraction hne hd =>
      obtain ⟨c, hc⟩ := List.exists_mem_of_ne_nil _ hne
      have hmem : c ∈ whole ++ '.' :: fraction :=
        (List.sublist_cons_self '.' fraction).append_left whole |>.subset hc
      have h0 := hnone hd
      rw [List.count_append] at h0
      refine ⟨⟨c, hmem, hd c hc⟩, ?_⟩
      rw [List.count_append, List.count_cons_self]
      omega
  · rintro ⟨⟨x, hx, hdigit⟩, hcount⟩
    rcases digits_or_point hcs with hd | ⟨whole, tail, rfl, hwhole⟩
    · exact ⟨_, .whole (List.ne_nil_of_mem hx) hd⟩
    · rw [List.count_append, List.count_cons_self] at hcount
      have htail : ∀ c ∈ tail, c.isDigit = true := by
        intro c hc
        have hne : c ≠ '.' := by
          rintro rfl
          exact List.count_eq_zero.1 (by omega) hc
        simpa [isNumberChar, hne] using
          hcs c (List.mem_append_right _ (List.mem_cons_of_mem _ hc))
      refine ⟨_, .point ?_ (List.forall_mem_append.2 ⟨hwhole, htail⟩)⟩
      rintro hnil
      obtain ⟨rfl, rfl⟩ := List.append_eq_nil_iff.1 hnil
      obtain rfl := List.mem_singleton.1 hx
      exact absurd hdigit (by decide)

end Decimal

/-! ## Symbols -/

/-- A word is read off a run of digits whose number it can hold. -/
theorem readWord?_eq_some_iff {cs : List Char} {word : UInt64} :
    readWord? cs = some word ↔
      cs ≠ [] ∧ (∀ c ∈ cs, c.isDigit = true) ∧ readDigits cs < 2 ^ 64 ∧
        word = UInt64.ofNat (readDigits cs) := by
  have hok : (cs.isEmpty || !cs.all Char.isDigit) = false ↔
      cs ≠ [] ∧ ∀ c ∈ cs, c.isDigit = true := by
    simp [List.isEmpty_eq_false_iff]
  rw [readWord?, ← and_assoc, ← hok]
  cases hc : cs.isEmpty || !cs.all Char.isDigit with
  | true => simp
  | false =>
    by_cases hmax : readDigits cs < 2 ^ 64
    · rw [if_neg Bool.false_ne_true, if_pos hmax]
      exact ⟨fun h => ⟨rfl, hmax, (Option.some.inj h).symm⟩, fun h => h.2.2 ▸ rfl⟩
    · rw [if_neg Bool.false_ne_true, if_neg hmax]
      exact ⟨fun h => absurd h (by simp), fun h => absurd h.2.1 hmax⟩

namespace Symbol

/-- What a name after a dollar sign stands for; parameters count from one. -/
inductive Named : List Char → Symbol → Prop where
  | rank : Named ['r', 'a', 'n', 'k'] .rank
  | rand : Named ['r', 'a', 'n', 'd'] .rand
  | param {digits : List Char} (hne : digits ≠ []) (hd : ∀ c ∈ digits, c.isDigit = true)
    (hpos : 1 ≤ readDigits digits) (hmax : readDigits digits < 2 ^ 64) :
    Named digits (.param (UInt64.ofNat (readDigits digits)))

theorem ofName?_eq_some_iff {name : List Char} {symbol : Symbol} :
    ofName? name = some symbol ↔ Named name symbol := by
  constructor
  · intro h
    unfold ofName? at h
    split at h
    · next hn =>
      obtain rfl := Option.some.inj h
      exact hn ▸ .rank
    split at h
    · next hn =>
      obtain rfl := Option.some.inj h
      exact hn ▸ .rand
    cases hw : readWord? name with
    | none => simp [hw] at h
    | some index =>
      obtain ⟨hne, hd, hmax, rfl⟩ := readWord?_eq_some_iff.1 hw
      simp only [hw] at h
      by_cases hzero : UInt64.ofNat (readDigits name) = 0
      · simp [hzero] at h
      · rw [if_neg hzero] at h
        obtain rfl := Option.some.inj h
        refine .param hne hd (Nat.pos_of_ne_zero fun h0 => hzero ?_) hmax
        rw [h0]
        rfl
  · intro h
    cases h with
    | rank => rfl
    | rand => rfl
    | param hne hd hpos hmax =>
      -- Digits are neither of the two names, and their number is not taken for zero.
      have hletter {a b c : Char} : name ≠ ['r', a, b, c] := by
        rintro rfl
        exact absurd (hd 'r' List.mem_cons_self) (by decide)
      have hzero : UInt64.ofNat (readDigits name) ≠ 0 := by
        intro h0
        have hz := congrArg UInt64.toNat h0
        rw [UInt64.toNat_ofNat_of_lt' (by simpa using hmax)] at hz
        simp only [UInt64.toNat_zero] at hz
        omega
      have hread := readWord?_eq_some_iff.2 ⟨hne, hd, hmax, rfl⟩
      simp [ofName?, hletter, hread, hzero]

/-- The text of a symbol. -/
inductive Spelled : List Char → Symbol → Prop where
  | number {text : List Char} {d : Decimal} (h : Decimal.Spelled text d) :
    Spelled text (.number d.toScalar)
  | name {name : List Char} {symbol : Symbol} (hc : ∀ c ∈ name, c.isAlphanum = true)
    (h : Named name symbol) : Spelled ('$' :: name) symbol
  | op (op : BinaryOp) : Spelled [op.sign] (.op op)
  | opening : Spelled ['('] .opening
  | closing : Spelled [')'] .closing

theorem Spelled.ne_nil {text : List Char} {symbol : Symbol} (h : symbol.Spelled text) :
    text ≠ [] := by
  cases h with
  | number h => exact h.ne_nil
  | name _ _ | op _ | opening | closing => exact List.cons_ne_nil _ _

/-- The characters that would belong to a symbol if they stood right after it. -/
def continues : Symbol → Char → Bool
  | number _ => isNumberChar
  | param _ | rank | rand => Char.isAlphanum
  | op _ | opening | closing => fun _ => false

theorem Named.continues {name : List Char} {symbol : Symbol} (h : Named name symbol) :
    symbol.continues = Char.isAlphanum := by
  cases h <;> rfl

theorem spelled_ofChar? {c : Char} {symbol : Symbol} (h : ofChar? c = some symbol) :
    symbol.Spelled [c] := by
  unfold ofChar? at h
  split at h <;> cases h
  · exact .op .add
  · exact .op .sub
  · exact .op .mul
  · exact .op .div
  · exact .op .rem
  · exact .opening
  · exact .closing

/-- A symbol is as long as it can be before a text that does not go on with it. -/
def EndsBefore (symbol : Symbol) (rest : List Char) : Prop :=
  ∀ c ∈ rest.head?, symbol.continues c = false

theorem endsBefore_ofChar? {c : Char} {symbol : Symbol} (h : ofChar? c = some symbol)
    (rest : List Char) : symbol.EndsBefore rest := by
  unfold ofChar? at h
  split at h <;> cases h <;> exact fun _ _ => rfl

end Symbol

/-! ## Runs of characters -/

section Runs

variable {p : Char → Bool}

theorem takeWhile_of_endsBefore {run rest : List Char} (hrun : ∀ c ∈ run, p c = true)
    (hrest : ∀ c ∈ rest.head?, p c = false) : (run ++ rest).takeWhile p = run := by
  rw [List.takeWhile_append_of_pos hrun]
  cases rest with
  | nil => simp
  | cons c rest => simp [hrest c rfl]

theorem endsBefore_dropWhile (p : Char → Bool) (cs : List Char) :
    ∀ c ∈ (cs.dropWhile p).head?, p c = false := by
  intro c hc
  cases hr : cs.dropWhile p with
  | nil => simp [hr] at hc
  | cons c' rest =>
    rw [hr] at hc
    obtain rfl := Option.some.inj hc
    exact not_of_dropWhile hr

end Runs

/-! ## Lexemes -/

namespace Lexeme

variable {offset : Nat} {c : Char} {rest : List Char}

/-- A lexeme that was read is a blank, or the text of a symbol that ends where it has to. -/
theorem read_ok {lexeme : Lexeme} (h : read offset c rest = .ok lexeme) :
    (isFormulaBlank c = true ∧ lexeme = ⟨none, 0⟩) ∨
    ∃ symbol more rest', lexeme = ⟨some symbol, more.length⟩ ∧ rest = more ++ rest' ∧
      symbol.Spelled (c :: more) ∧ symbol.EndsBefore rest' := by
  have hsplit (p : Char → Bool) : rest = rest.takeWhile p ++ rest.dropWhile p :=
    List.takeWhile_append_dropWhile.symm
  unfold read at h
  -- A blank, a numeral, a name after a dollar sign, a sign or a parenthesis.
  split at h
  · next hb =>
    cases h
    exact .inl ⟨hb, rfl⟩
  split at h
  · next hn =>
    simp only at h
    split at h
    · next d hd =>
      cases h
      have hrun : ∀ x ∈ c :: rest.takeWhile isNumberChar, isNumberChar x = true :=
        List.forall_mem_cons.2 ⟨hn, fun x hx => List.mem_takeWhile_imp hx⟩
      have hspelled := (Decimal.ofDigitsAndPoint?_eq_some_iff hrun).1 hd
      exact .inr ⟨_, _, _, rfl, hsplit isNumberChar, .number hspelled,
        endsBefore_dropWhile isNumberChar rest⟩
    · cases h
  split at h
  · next hdollar =>
    subst hdollar
    simp only at h
    split at h
    · next symbol hname =>
      cases h
      have hnamed := Symbol.ofName?_eq_some_iff.1 hname
      refine .inr ⟨_, _, _, rfl, hsplit Char.isAlphanum,
        .name (fun x hx => List.mem_takeWhile_imp hx) hnamed, ?_⟩
      rw [Symbol.EndsBefore, hnamed.continues]
      exact endsBefore_dropWhile Char.isAlphanum rest
    · cases h
  · split at h
    · next symbol hc =>
      cases h
      refine .inr ⟨symbol, [], rest, rfl, rfl, ?_, ?_⟩
      · exact Symbol.spelled_ofChar? hc
      · exact Symbol.endsBefore_ofChar? hc rest
    · cases h

/-- The text of a symbol that ends where it has to is read as that symbol. -/
theorem read_of_spelled {symbol : Symbol} {more : List Char} (h : symbol.Spelled (c :: more))
    (hend : symbol.EndsBefore rest) :
    read offset c (more ++ rest) = .ok ⟨some symbol, more.length⟩ := by
  generalize htext : c :: more = text at h
  cases h with
  | @number text d h =>
    subst htext
    obtain ⟨hc, hmore⟩ := List.forall_mem_cons.1 h.all
    have hrun : (more ++ rest).takeWhile isNumberChar = more := takeWhile_of_endsBefore hmore hend
    have hread := (Decimal.ofDigitsAndPoint?_eq_some_iff h.all).2 h
    simp [read, Decimal.not_isFormulaBlank_of_isNumberChar hc, hc, hrun, hread]
  | @name name symbol hname h =>
    obtain ⟨rfl, rfl⟩ := List.cons.inj htext
    rw [Symbol.EndsBefore, h.continues] at hend
    have hrun : (more ++ rest).takeWhile Char.isAlphanum = more :=
      takeWhile_of_endsBefore hname hend
    have hread := Symbol.ofName?_eq_some_iff.2 h
    simp [read, hrun, hread, show isFormulaBlank '$' = false from rfl,
      show isNumberChar '$' = false from rfl]
  | op op =>
    obtain ⟨rfl, rfl⟩ := List.cons.inj htext
    cases op <;> rfl
  | opening =>
    obtain ⟨rfl, rfl⟩ := List.cons.inj htext
    rfl
  | closing =>
    obtain ⟨rfl, rfl⟩ := List.cons.inj htext
    rfl

end Lexeme

/-! ## Texts -/

namespace Token

/-- The tokens that a text spells which starts at an offset: blanks are left out, and each token has
the offset of its first byte. -/
inductive Spelled : Nat → List Char → List Token → Prop where
  | nil {offset : Nat} : Spelled offset [] []
  | blank {offset : Nat} {c : Char} {rest : List Char} {tokens : List Token}
    (hc : isFormulaBlank c = true) (h : Spelled (offset + c.utf8Size) rest tokens) :
    Spelled offset (c :: rest) tokens
  | token {offset : Nat} {text rest : List Char} {symbol : Symbol} {tokens : List Token}
    (hs : symbol.Spelled text) (hend : symbol.EndsBefore rest)
    (h : Spelled (offset + utf8Length text) rest tokens) :
    Spelled offset (text ++ rest) (⟨symbol, offset⟩ :: tokens)

/-- The characters that belong to a lexeme already read are left out. -/
theorem scanFrom_append (run rest : List Char) (offset : Nat) :
    scanFrom run.length offset (run ++ rest) = scanFrom 0 (offset + utf8Length run) rest := by
  induction run generalizing offset with
  | nil => rfl
  | cons c run ih =>
    rw [utf8Length, ← Nat.add_assoc]
    exact ih (offset + c.utf8Size)

/-- A text starts with a lexeme, and goes on behind it. -/
theorem scanFrom_cons {offset : Nat} {c : Char} (more : List Char) {rest : List Char}
    {symbol : Option Symbol}
    (h : Lexeme.read offset c (more ++ rest) = .ok ⟨symbol, more.length⟩) :
    scanFrom 0 offset (c :: (more ++ rest))
      = (scanFrom 0 (offset + utf8Length (c :: more)) rest).map
          ((symbol.map (⟨·, offset⟩)).toList ++ ·) := by
  rw [utf8Length, ← Nat.add_assoc, ← scanFrom_append, scanFrom, h]
  show Except.bind (scanFrom more.length (offset + c.utf8Size) (more ++ rest)) _ = _
  cases scanFrom more.length (offset + c.utf8Size) (more ++ rest) with
  | error e => rfl
  | ok tokens => cases symbol <;> rfl

/-- A blank at the start of a text is left out. -/
theorem scanFrom_blank {offset : Nat} {c : Char} {rest : List Char} (hc : isFormulaBlank c = true) :
    scanFrom 0 offset (c :: rest) = scanFrom 0 (offset + c.utf8Size) rest := by
  have hread : Lexeme.read offset c ([] ++ rest) = .ok ⟨none, 0⟩ := by
    simp [Lexeme.read, hc]
  have hscan := scanFrom_cons [] hread
  rw [utf8Length, utf8Length, Nat.add_zero] at hscan
  refine hscan.trans ?_
  cases scanFrom 0 (offset + c.utf8Size) rest <;> rfl

/-- A text starts with a token, and goes on behind it. -/
theorem scanFrom_token {offset : Nat} {text rest : List Char} {symbol : Symbol}
    (hs : symbol.Spelled text) (hend : symbol.EndsBefore rest) :
    scanFrom 0 offset (text ++ rest)
      = (scanFrom 0 (offset + utf8Length text) rest).map (⟨symbol, offset⟩ :: ·) := by
  obtain ⟨c, more, rfl⟩ := List.exists_cons_of_ne_nil hs.ne_nil
  exact scanFrom_cons more (Lexeme.read_of_spelled hs hend)

/-- What holds of the empty text, and of a text because it holds of what is behind its first blank or token,
or because it starts with neither, holds of every text. -/
theorem scan_induction {motive : Nat → List Char → Prop} (nil : ∀ offset, motive offset [])
    (error : ∀ offset c rest e, Lexeme.read offset c rest = .error e → motive offset (c :: rest))
    (blank : ∀ offset c rest, isFormulaBlank c = true → motive (offset + c.utf8Size) rest →
      motive offset (c :: rest))
    (token : ∀ offset text rest (symbol : Symbol), symbol.Spelled text → symbol.EndsBefore rest →
      motive (offset + utf8Length text) rest → motive offset (text ++ rest))
    (offset : Nat) (cs : List Char) : motive offset cs := by
  -- What is left behind a lexeme is shorter, so the induction is on the length of the text.
  induction hn : cs.length using Nat.strongRecOn generalizing offset cs with
  | _ n ih =>
    subst hn
    cases cs with
    | nil => exact nil offset
    | cons c rest =>
      cases hl : Lexeme.read offset c rest with
      | error e => exact error offset c rest e hl
      | ok lexeme =>
        rcases Lexeme.read_ok hl with ⟨hc, -⟩ | ⟨symbol, more, rest, -, rfl, hs, hend⟩
        · exact blank offset c rest hc (ih _ (Nat.lt_succ_self _) _ rest rfl)
        · refine token offset (c :: more) rest symbol hs hend (ih _ ?_ _ rest rfl)
          simp only [List.length_cons, List.length_append]
          omega

variable {offset : Nat} {cs : List Char} {tokens : List Token}

theorem scanFrom_of_spelled (h : Spelled offset cs tokens) :
    scanFrom 0 offset cs = .ok tokens := by
  induction h with
  | nil => rfl
  | blank hc _ ih => rw [scanFrom_blank hc, ih]
  | token hs hend _ ih =>
    rw [scanFrom_token hs hend, ih]
    rfl

theorem spelled_of_scanFrom (h : scanFrom 0 offset cs = .ok tokens) :
    Spelled offset cs tokens := by
  induction offset, cs using scan_induction generalizing tokens with
  | nil offset =>
    cases h
    exact .nil
  | error offset c rest e he =>
    rw [scanFrom, he] at h
    cases h
  | blank offset c rest hc ih =>
    rw [scanFrom_blank hc] at h
    exact .blank hc (ih h)
  | token offset text rest symbol hs hend ih =>
    rw [scanFrom_token hs hend] at h
    obtain ⟨tail, ht, rfl⟩ := Barrage.Except.map_ok h
    exact .token hs hend (ih ht)

theorem scan_ofList (cs : List Char) : scan (String.ofList cs) = scanFrom 0 0 cs := by
  rw [scan, String.toList_ofList]

/-- A text splits into exactly the tokens that it spells. -/
theorem scan_eq_ok_iff {source : String} {tokens : List Token} :
    scan source = .ok tokens ↔ Spelled 0 source.toList tokens :=
  ⟨spelled_of_scanFrom, scanFrom_of_spelled⟩

end Token

end Barrage
