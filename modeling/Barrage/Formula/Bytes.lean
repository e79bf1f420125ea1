import Barrage.Formula.Spelling
import Mathlib.Data.String.Basic

/-!
# Texts of formulas by their bytes

A text is stored as bytes, and a place in it is the number of bytes before it. A place may lie inside a
character, where no slice of the text can begin or end.

* `utf8EncodeChar_cases`, `takeWhile_utf8Bytes`: what the bytes of a text say about its characters.
* `slice?`: the text between two places, if there is such a slice.
* `Lexeme.readBytes?`, `Token.scanBytes?`: the tokens of a text, found by looking at one byte after the
  other and slicing the text where a run of bytes ends.
* `Token.scanBytes?_eq`: every slice that is made exists, and the tokens are those that the characters of
  the text give.
-/

namespace Barrage

/-! ## Bytes of characters -/

/-- The bytes of characters. -/
def utf8Bytes (cs : List Char) : List UInt8 := cs.flatMap String.utf8EncodeChar

/-- Whether a byte is an ASCII character of a kind. -/
def isAscii (p : Char → Bool) (b : UInt8) : Bool := b < 128 && p (Char.ofUInt8 b)

theorem utf8Bytes_cons (c : Char) (cs : List Char) :
    utf8Bytes (c :: cs) = String.utf8EncodeChar c ++ utf8Bytes cs := List.flatMap_cons

theorem length_utf8Bytes (cs : List Char) : (utf8Bytes cs).length = utf8Length cs := by
  induction cs with
  | nil => rfl
  | cons c cs ih =>
    rw [utf8Bytes_cons, List.length_append, String.length_utf8EncodeChar, ih, utf8Length]

theorem utf8Length_pos {cs : List Char} (h : cs ≠ []) : 0 < utf8Length cs := by
  obtain ⟨c, rest, rfl⟩ := List.exists_cons_of_ne_nil h
  exact Nat.add_pos_left c.utf8Size_pos _

theorem bytes_ofList (cs : List Char) :
    (String.ofList cs).toByteArray.data.toList = utf8Bytes cs := by
  rw [String.toByteArray_ofList, List.utf8Encode, List.toList_data_toByteArray, utf8Bytes]

theorem utf8Len_eq (cs : List Char) : String.utf8Len cs = utf8Length cs := by
  induction cs with
  | nil => rfl
  | cons c cs ih => rw [String.utf8Len_cons, utf8Length, ih, Nat.add_comm]

theorem utf8ByteSize_ofList (cs : List Char) : (String.ofList cs).utf8ByteSize = utf8Length cs := by
  rw [String.utf8ByteSize_ofList, utf8Len_eq]

/-! ## ASCII characters -/

section Ascii

variable {c : Char} {p : Char → Bool}

theorem utf8Size_of_le (h : c.val.toNat ≤ 127) : c.utf8Size = 1 := by
  rw [Char.utf8Size_eq_one_iff, UInt32.le_iff_toNat_le]
  exact h

theorem le_of_utf8Size (h : c.utf8Size = 1) : c.val.toNat ≤ 127 :=
  UInt32.le_iff_toNat_le.1 (Char.utf8Size_eq_one_iff.1 h)

theorem utf8Size_of_isDigit (h : c.isDigit = true) : c.utf8Size = 1 := by
  have hle : c.val ≤ '9'.val := of_decide_eq_true (Bool.and_eq_true_iff.1 h).2
  exact Char.utf8Size_eq_one_iff.2 (UInt32.le_trans hle (by decide))

theorem utf8Size_of_isAlphanum (h : c.isAlphanum = true) : c.utf8Size = 1 := by
  rcases Bool.or_eq_true_iff.1 h with hletter | hdigit
  · rcases Bool.or_eq_true_iff.1 hletter with hupper | hlower
    · have hle : c.val ≤ 'Z'.val := (of_decide_eq_true hupper).2
      exact Char.utf8Size_eq_one_iff.2 (UInt32.le_trans hle (by decide))
    · have hle : c.val ≤ 'z'.val := of_decide_eq_true (Bool.and_eq_true_iff.1 hlower).2
      exact Char.utf8Size_eq_one_iff.2 (UInt32.le_trans hle (by decide))
  · exact utf8Size_of_isDigit hdigit

theorem utf8Size_of_isNumberChar (h : isNumberChar c = true) : c.utf8Size = 1 := by
  simp only [isNumberChar, Bool.or_eq_true, beq_iff_eq] at h
  rcases h with h | rfl
  · exact utf8Size_of_isDigit h
  · rfl

theorem utf8Size_of_isFormulaBlank (h : isFormulaBlank c = true) : c.utf8Size = 1 := by
  simp only [isFormulaBlank, Bool.or_eq_true, beq_iff_eq] at h
  rcases h with ((rfl | rfl) | rfl) | rfl <;> rfl

theorem utf8Size_of_ofChar? (h : (Symbol.ofChar? c).isSome = true) : c.utf8Size = 1 := by
  unfold Symbol.ofChar? at h
  split at h
  all_goals first | rfl | cases h

theorem utf8Length_of_ascii {cs : List Char} (h : ∀ c ∈ cs, c.utf8Size = 1) :
    utf8Length cs = cs.length := by
  induction cs with
  | nil => rfl
  | cons c cs ih =>
    obtain ⟨hc, hcs⟩ := List.forall_mem_cons.1 h
    rw [utf8Length, hc, ih hcs, List.length_cons, Nat.add_comm]

theorem ofUInt8_toUInt8 (h : c.utf8Size = 1) : Char.ofUInt8 c.val.toUInt8 = c := by
  have hle := le_of_utf8Size h
  refine Char.ext (UInt32.toNat_inj.1 ?_)
  show c.val.toUInt8.toUInt32.toNat = _
  rw [UInt8.toNat_toUInt32, UInt32.toNat_toUInt8]
  omega

theorem isAscii_toUInt8 (p : Char → Bool) (h : c.utf8Size = 1) : isAscii p c.val.toUInt8 = p c := by
  have hle := le_of_utf8Size h
  have hlt : c.val.toUInt8 < 128 := by
    rw [UInt8.lt_iff_toNat_lt, UInt32.toNat_toUInt8]
    show c.val.toNat % 256 < 128
    omega
  rw [isAscii, ofUInt8_toUInt8 h, decide_eq_true hlt, Bool.true_and]

theorem isAscii_of_le {n : Nat} (hlow : 128 ≤ n) (hhigh : n < 256) (p : Char → Bool) :
    isAscii p (UInt8.ofNat n) = false := by
  have hge : ¬ UInt8.ofNat n < 128 := by
    rw [UInt8.lt_iff_toNat_lt, UInt8.toNat_ofNat_of_lt' hhigh]
    exact Nat.not_lt.2 hlow
  rw [isAscii, decide_eq_false hge, Bool.false_and]

/-- An ASCII character is its own byte, and the first byte of any other is no ASCII character. -/
theorem utf8EncodeChar_cases (c : Char) :
    (c.utf8Size = 1 ∧ String.utf8EncodeChar c = [c.val.toUInt8]) ∨
    (c.utf8Size ≠ 1 ∧ ∃ b more, String.utf8EncodeChar c = b :: more ∧ ∀ p, isAscii p b = false) := by
  by_cases h : c.val.toNat ≤ 127
  · have hsize := utf8Size_of_le h
    exact .inl ⟨hsize, String.utf8EncodeChar_eq_singleton hsize⟩
  · have hmax := c.val.toNat_lt
    refine .inr ⟨fun hsize => h (le_of_utf8Size hsize), ?_⟩
    rw [String.utf8EncodeChar.eq_1, if_neg h]
    split
    · exact ⟨_, _, rfl, isAscii_of_le (by omega) (by omega)⟩
    split
    · exact ⟨_, _, rfl, isAscii_of_le (by omega) (by omega)⟩
    · exact ⟨_, _, rfl, isAscii_of_le (by omega) (by omega)⟩

/-- A run of bytes that are ASCII characters of a kind is a run of such characters. -/
theorem takeWhile_utf8Bytes (hp : ∀ c, p c = true → c.utf8Size = 1) (cs : List Char) :
    (utf8Bytes cs).takeWhile (isAscii p) = utf8Bytes (cs.takeWhile p) := by
  induction cs with
  | nil => rfl
  | cons c cs ih =>
    rcases utf8EncodeChar_cases c with ⟨hsize, hencode⟩ | ⟨hsize, b, more, hencode, hb⟩
    · rw [utf8Bytes_cons, hencode, List.singleton_append, List.takeWhile_cons, List.takeWhile_cons,
        isAscii_toUInt8 p hsize, ih]
      split
      · rw [utf8Bytes_cons, hencode, List.singleton_append]
      · rfl
    · have hc : p c = false := by
        rw [← Bool.not_eq_true]
        exact fun h => hsize (hp c h)
      rw [utf8Bytes_cons, hencode, List.cons_append, List.takeWhile_cons_of_neg (by simp [hb]),
        List.takeWhile_cons_of_neg (by simp [hc])]
      rfl

theorem utf8Length_takeWhile (hp : ∀ c, p c = true → c.utf8Size = 1) (cs : List Char) :
    utf8Length (cs.takeWhile p) = (cs.takeWhile p).length :=
  utf8Length_of_ascii fun c hc => hp c (List.mem_takeWhile_imp hc)

theorem length_takeWhile_utf8Bytes (hp : ∀ c, p c = true → c.utf8Size = 1) (cs : List Char) :
    ((utf8Bytes cs).takeWhile (isAscii p)).length = (cs.takeWhile p).length := by
  rw [takeWhile_utf8Bytes hp, length_utf8Bytes, utf8Length_takeWhile hp]

end Ascii

/-! ## Slices -/

/-- The text between two places, unless one of them lies inside a character or they are in the wrong
order. -/
def slice? (source : String) (start stop : Nat) : Option (List Char) :=
  if start ≤ stop ∧ String.Pos.Raw.isValid source ⟨start⟩ ∧ String.Pos.Raw.isValid source ⟨stop⟩ then
    some (String.Pos.Raw.extract source ⟨start⟩ ⟨stop⟩).toList
  else none

/-- A place behind characters lies inside none. -/
theorem isValid_append (before after : List Char) :
    String.Pos.Raw.IsValid (String.ofList (before ++ after)) ⟨utf8Length before⟩ := by
  refine String.Pos.Raw.isValid_iff_exists_append.2
    ⟨String.ofList before, String.ofList after, String.ofList_append, ?_⟩
  rw [String.Pos.Raw.ext_iff]
  exact (utf8ByteSize_ofList before).symm

theorem slice?_append (before text after : List Char) :
    slice? (String.ofList (before ++ text ++ after)) (utf8Length before)
      (utf8Length before + utf8Length text) = some text := by
  have hstart := isValid_append before (text ++ after)
  have hstop := isValid_append (before ++ text) after
  rw [← List.append_assoc] at hstart
  rw [utf8Length_append] at hstop
  have hextract := String.extract_of_valid before text after
  rw [utf8Len_eq, utf8Len_eq] at hextract
  rw [slice?, if_pos ⟨Nat.le_add_right _ _, String.Pos.Raw.isValid_eq_true_iff.2 hstart,
    String.Pos.Raw.isValid_eq_true_iff.2 hstop⟩]
  exact congrArg some ((congrArg String.toList hextract).trans String.toList_ofList)

/-- A run of ASCII characters is sliced off by its length. -/
theorem slice?_takeWhile {p : Char → Bool} (hp : ∀ c, p c = true → c.utf8Size = 1)
    (before rest : List Char) :
    slice? (String.ofList (before ++ rest)) (utf8Length before)
      (utf8Length before + (rest.takeWhile p).length) = some (rest.takeWhile p) := by
  have hrun := slice?_append before (rest.takeWhile p) (rest.dropWhile p)
  rwa [List.append_assoc, List.takeWhile_append_dropWhile, utf8Length_takeWhile hp] at hrun

/-! ## Scanning -/

/-- The lexeme that starts with the byte `b`, which stands at the place `start` before `rest`. Those that
follow it are as many bytes as characters. -/
def Lexeme.readBytes? (source : String) (start : Nat) (b : UInt8) (rest : List UInt8) :
    Option (Except FormulaError Lexeme) :=
  if isAscii isFormulaBlank b then some (.ok ⟨none, 0⟩)
  else if isAscii isNumberChar b then do
    let following := (rest.takeWhile (isAscii isNumberChar)).length
    let text ← slice? source start (start + 1 + following)
    match Decimal.ofDigitsAndPoint? text with
    | some d => some (.ok ⟨some (.number d.toScalar), following⟩)
    | none => some (.error (.invalidNumber (String.ofList text) start))
  else if isAscii (· == '$') b then do
    let following := (rest.takeWhile (isAscii Char.isAlphanum)).length
    let name ← slice? source (start + 1) (start + 1 + following)
    match Symbol.ofName? name with
    | some symbol => some (.ok ⟨some symbol, following⟩)
    | none => some (.error (.invalidParam (String.ofList name) start))
  else if isAscii (fun c => (Symbol.ofChar? c).isSome) b then
    some (.ok ⟨Symbol.ofChar? (Char.ofUInt8 b), 0⟩)
  else do
    let text ← slice? source start source.utf8ByteSize
    some (.error (.unexpectedChar (text.headD '\ufffd') start))

/-- The kinds of characters that lexemes start with. -/
def Lexeme.kinds : List (Char → Bool) :=
  [isFormulaBlank, isNumberChar, (· == '$'), fun c => (Symbol.ofChar? c).isSome]

section Lexemes

variable {before rest : List Char} {c : Char}

theorem Lexeme.utf8Size_of_mem_kinds {p : Char → Bool} (hp : p ∈ kinds) (h : p c = true) :
    c.utf8Size = 1 := by
  simp only [kinds, List.mem_cons, List.not_mem_nil, or_false] at hp
  rcases hp with rfl | rfl | rfl | rfl
  · exact utf8Size_of_isFormulaBlank h
  · exact utf8Size_of_isNumberChar h
  · exact eq_of_beq h ▸ rfl
  · exact utf8Size_of_ofChar? h

/-- A number is sliced off where the bytes of its characters end. -/
theorem Lexeme.readBytes?_number (hnumber : isNumberChar c = true) :
    readBytes? (String.ofList (before ++ c :: rest)) (utf8Length before) c.val.toUInt8
      (utf8Bytes rest) = some (read (utf8Length before) c rest) := by
  have hp (x : Char) : isNumberChar x = true → x.utf8Size = 1 := utf8Size_of_isNumberChar
  have hblank := Bool.not_eq_true _ ▸ Decimal.not_isFormulaBlank_of_isNumberChar hnumber
  have hslice := slice?_takeWhile hp before (c :: rest)
  rw [List.takeWhile_cons_of_pos hnumber, List.length_cons, Nat.add_comm _ 1,
    ← Nat.add_assoc] at hslice
  rw [readBytes?, read, isAscii_toUInt8 _ (hp c hnumber), isAscii_toUInt8 _ (hp c hnumber),
    if_neg hblank, if_neg hblank, if_pos hnumber, if_pos hnumber]
  simp only [length_takeWhile_utf8Bytes hp]
  rw [hslice, Option.bind_eq_bind, Option.bind_some]
  cases Decimal.ofDigitsAndPoint? (c :: rest.takeWhile isNumberChar) <;> rfl

/-- A name is sliced off behind its dollar sign, where the bytes of its characters end. -/
theorem Lexeme.readBytes?_name :
    readBytes? (String.ofList (before ++ '$' :: rest)) (utf8Length before) '$'.val.toUInt8
      (utf8Bytes rest) = some (read (utf8Length before) '$' rest) := by
  have hp (x : Char) : x.isAlphanum = true → x.utf8Size = 1 := utf8Size_of_isAlphanum
  have hslice := slice?_takeWhile hp (before ++ ['$']) rest
  rw [List.append_assoc, List.singleton_append, utf8Length_append,
    show utf8Length ['$'] = 1 from rfl] at hslice
  rw [readBytes?, if_neg (by decide), if_neg (by decide), if_pos (by decide),
    read, if_neg (by decide), if_neg (by decide), if_pos rfl]
  simp only [length_takeWhile_utf8Bytes hp]
  rw [hslice, Option.bind_eq_bind, Option.bind_some]
  cases Symbol.ofName? (rest.takeWhile Char.isAlphanum) <;> rfl

/-- A character that starts no lexeme is sliced off to be named. -/
theorem Lexeme.readBytes?_unexpected {b : UInt8} {bytes : List UInt8}
    (hb : ∀ p ∈ kinds, isAscii p b = false) :
    readBytes? (String.ofList (before ++ c :: rest)) (utf8Length before) b bytes
      = some (.error (.unexpectedChar c (utf8Length before))) := by
  have hslice := slice?_append before (c :: rest) []
  rw [List.append_nil, ← utf8Length_append, ← utf8ByteSize_ofList (before ++ c :: rest)] at hslice
  simp only [kinds, List.forall_mem_cons] at hb
  obtain ⟨hblank, hnumber, hdollar, hsymbol, -⟩ := hb
  simp only [readBytes?, hblank, hnumber, hdollar, hsymbol, Bool.false_eq_true, if_false, hslice]
  rfl

theorem Lexeme.read_unexpected (offset : Nat) (h : ∀ p ∈ kinds, p c = false) :
    read offset c rest = .error (.unexpectedChar c offset) := by
  simp only [kinds, List.forall_mem_cons, beq_eq_false_iff_ne, Option.isSome_eq_false_iff,
    Option.isNone_iff_eq_none] at h
  obtain ⟨hblank, hnumber, hdollar, hsymbol, -⟩ := h
  simp only [read, hblank, hnumber, hdollar, hsymbol, Bool.false_eq_true, if_false]

/-- A lexeme is read by its bytes as by its characters. -/
theorem Lexeme.readBytes?_eq {b : UInt8} {more : List UInt8}
    (hencode : String.utf8EncodeChar c = b :: more) :
    readBytes? (String.ofList (before ++ c :: rest)) (utf8Length before) b (more ++ utf8Bytes rest)
      = some (read (utf8Length before) c rest) := by
  by_cases hkind : ∃ p ∈ kinds, p c = true
  · obtain ⟨p, hp, hc⟩ := hkind
    have hsize := utf8Size_of_mem_kinds hp hc
    obtain ⟨rfl, rfl⟩ := List.cons.inj
      (hencode.symm.trans (String.utf8EncodeChar_eq_singleton hsize))
    simp only [kinds, List.mem_cons, List.not_mem_nil, or_false] at hp
    rcases hp with rfl | rfl | rfl | rfl
    · rw [readBytes?, isAscii_toUInt8 _ hsize, if_pos hc, read, if_pos hc]
    · exact readBytes?_number hc
    · exact eq_of_beq hc ▸ readBytes?_name
    · simp only [Symbol.ofChar?] at hc
      split at hc
      all_goals first | rfl | cases hc
  · have hnone (p : Char → Bool) (hp : p ∈ kinds) : p c = false :=
      Bool.not_eq_true _ ▸ fun hc => hkind ⟨p, hp, hc⟩
    rw [read_unexpected _ hnone, readBytes?_unexpected]
    intro p hp
    rcases utf8EncodeChar_cases c with ⟨hsize, hc⟩ | ⟨-, b', more', hc, hb⟩
    · obtain ⟨rfl, rfl⟩ := List.cons.inj (hencode.symm.trans hc)
      rw [isAscii_toUInt8 p hsize, hnone p hp]
    · obtain ⟨rfl, rfl⟩ := List.cons.inj (hencode.symm.trans hc)
      exact hb p

end Lexemes

/-! ## Scanning -/

theorem Symbol.Spelled.utf8Length_eq {symbol : Symbol} {text : List Char}
    (h : symbol.Spelled text) : utf8Length text = text.length := by
  refine utf8Length_of_ascii ?_
  cases h with
  | number h => exact fun c hc => utf8Size_of_isNumberChar (h.all c hc)
  | name hname _ =>
    exact List.forall_mem_cons.2 ⟨rfl, fun c hc => utf8Size_of_isAlphanum (hname c hc)⟩
  | op op => cases op <;> exact List.forall_mem_singleton.2 rfl
  | opening | closing => exact List.forall_mem_singleton.2 rfl

/-- The characters of a lexeme are one byte each. -/
theorem Lexeme.exists_of_read_ok {offset : Nat} {c : Char} {rest : List Char} {lexeme : Lexeme}
    (h : read offset c rest = .ok lexeme) :
    ∃ more rest', rest = more ++ rest' ∧ lexeme.following = more.length ∧
      utf8Length (c :: more) = 1 + more.length := by
  rcases read_ok h with ⟨hc, rfl⟩ | ⟨symbol, more, rest', rfl, rfl, hs, -⟩
  · exact ⟨[], rest, rfl, rfl, utf8Size_of_isFormulaBlank hc⟩
  · exact ⟨more, rest', rfl, rfl, hs.utf8Length_eq.trans (Nat.add_comm _ _)⟩

namespace Token

/-- The tokens of a text from a place on. -/
def scanBytes? (source : String) (start : Nat) : Option (Except FormulaError (List Token)) :=
  match _hdrop : source.toByteArray.data.toList.drop start with
  | [] => some (.ok [])
  | b :: rest =>
    match Lexeme.readBytes? source start b rest with
    | none => none
    | some (.error e) => some (.error e)
    | some (.ok lexeme) =>
      (scanBytes? source (start + 1 + lexeme.following)).map fun tokens =>
        ((lexeme.symbol.map (⟨·, start⟩)).toList ++ ·) <$> tokens
termination_by source.toByteArray.data.toList.length - start
decreasing_by
  have hlength := congrArg List.length _hdrop
  rw [List.length_drop, List.length_cons] at hlength
  omega

variable {source : String} {start : Nat}

theorem scanBytes?_of_nil (h : source.toByteArray.data.toList.drop start = []) :
    scanBytes? source start = some (.ok []) := by
  rw [scanBytes?]
  split
  · rfl
  · next hcons => cases h.symm.trans hcons

theorem scanBytes?_of_cons {b : UInt8} {rest : List UInt8}
    (h : source.toByteArray.data.toList.drop start = b :: rest) :
    scanBytes? source start = (Lexeme.readBytes? source start b rest).bind fun
      | .error e => some (.error e)
      | .ok lexeme =>
        (scanBytes? source (start + 1 + lexeme.following)).map fun tokens =>
          ((lexeme.symbol.map (⟨·, start⟩)).toList ++ ·) <$> tokens := by
  rw [scanBytes?]
  split
  · next hnil => cases h.symm.trans hnil
  · next hcons =>
    obtain ⟨rfl, rfl⟩ := List.cons.inj (h.symm.trans hcons)
    cases Lexeme.readBytes? source start b rest with
    | none => rfl
    | some result => cases result <;> rfl

/-- The bytes behind characters are those of the other characters. -/
theorem drop_bytes (before cs : List Char) :
    (String.ofList (before ++ cs)).toByteArray.data.toList.drop (utf8Length before)
      = utf8Bytes cs := by
  rw [bytes_ofList, utf8Bytes, List.flatMap_append, ← length_utf8Bytes]
  exact List.drop_left

/-- A text is scanned by its bytes as by its characters. -/
theorem scanBytes?_append (before cs : List Char) :
    scanBytes? (String.ofList (before ++ cs)) (utf8Length before)
      = some (scanFrom 0 (utf8Length before) cs) := by
  -- What is left behind a lexeme is shorter, so the induction is on the length of the text.
  induction hn : cs.length using Nat.strongRecOn generalizing before cs with
  | _ n ih =>
    subst hn
    have hdrop := drop_bytes before cs
    cases cs with
    | nil => exact scanBytes?_of_nil hdrop
    | cons c rest =>
      have hne : String.utf8EncodeChar c ≠ [] := String.utf8EncodeChar_ne_nil
      obtain ⟨b, bytes, hencode⟩ := List.exists_cons_of_ne_nil hne
      rw [utf8Bytes_cons, hencode, List.cons_append] at hdrop
      rw [scanBytes?_of_cons hdrop, Lexeme.readBytes?_eq hencode, Option.bind_some]
      cases hread : Lexeme.read (utf8Length before) c rest with
      | error e =>
        rw [scanFrom, hread]
        rfl
      | ok lexeme =>
        obtain ⟨symbol, following⟩ := lexeme
        obtain ⟨more, rest, rfl, rfl, hsize⟩ := Lexeme.exists_of_read_ok hread
        have hrest := ih rest.length (by simp only [List.length_cons, List.length_append]; omega)
          (before ++ c :: more) rest rfl
        rw [List.append_assoc, List.cons_append, utf8Length_append] at hrest
        rw [scanFrom_cons more hread]
        show (scanBytes? _ (utf8Length before + 1 + more.length)).map _ = _
        rw [Nat.add_assoc, ← hsize, hrest]
        rfl

/-- A text is split into tokens by its bytes as by its characters, and every slice of it exists. -/
theorem scanBytes?_eq (source : String) : scanBytes? source 0 = some (scan source) := by
  have h := scanBytes?_append [] source.toList
  rwa [List.nil_append, String.ofList_toList] at h

end Token

end Barrage
