import Barrage.Decimal.Basic

/-!
# Reading decimal numerals

* `Decimal.read?`: an optional sign, digits with at most one point, an optional exponent; all of the
  text has to be the numeral, and it needs a digit before the exponent.
* `Scalar.read?`: a numeral rounded once, or the name of an infinity or of the undefined value.
* `Decimal.ofDigitsAndPoint?`: the same without sign and exponent.
* `readWord?`: a run of digits as a word; `readUnsigned?`: with an optional plus sign before it.
-/

namespace Barrage

/-- Splits a sign off: whether it was a minus, and the rest. -/
def splitSign : List Char → Bool × List Char
  | '-' :: rest => (true, rest)
  | '+' :: rest => (false, rest)
  | cs => (false, cs)

/-- Digits after an optional point, and the rest. -/
def splitFraction : List Char → List Char × List Char
  | '.' :: rest => (rest.takeWhile Char.isDigit, rest.dropWhile Char.isDigit)
  | cs => ([], cs)

/-- The exponent that a text spells; no text stands for zero. -/
def readExponent? : List Char → Option Int
  | [] => some 0
  | c :: rest =>
    if c == 'e' || c == 'E' then
      let (negative, digits) := splitSign rest
      if digits.isEmpty || !digits.all Char.isDigit then none
      else some (if negative then -(readDigits digits : Int) else readDigits digits)
    else none

namespace Decimal

/-- The numeral that a text spells. -/
def read? (cs : List Char) : Option Decimal :=
  let (negative, rest) := splitSign cs
  let whole := rest.takeWhile Char.isDigit
  let (fraction, rest) := splitFraction (rest.dropWhile Char.isDigit)
  if whole.isEmpty && fraction.isEmpty then none
  else
    (readExponent? rest).map fun e =>
      ⟨negative, readDigits (whole ++ fraction), e - fraction.length⟩

/-- The numeral of a run of digits with at most one point; it needs a digit. -/
def ofDigitsAndPoint? (cs : List Char) : Option Decimal :=
  let whole := cs.takeWhile Char.isDigit
  match cs.dropWhile Char.isDigit with
  | [] => if whole.isEmpty then none else some ⟨false, readDigits whole, 0⟩
  | _ :: fraction =>
    if fraction.all Char.isDigit && !(whole.isEmpty && fraction.isEmpty) then
      some ⟨false, readDigits (whole ++ fraction), -fraction.length⟩
    else none

end Decimal

namespace Scalar

/-- The values that have a name, in lower case. -/
def named? (name : List Char) : Option Scalar :=
  if name = ['i', 'n', 'f'] then some infinity
  else if name = ['i', 'n', 'f', 'i', 'n', 'i', 't', 'y'] then some infinity
  else if name = ['n', 'a', 'n'] then some undefined
  else none

/-- The scalar that a text spells: a numeral, or a name in any case with an optional sign. -/
def read? (cs : List Char) : Option Scalar :=
  match Decimal.read? cs with
  | some d => some d.toScalar
  | none =>
    let (negative, name) := splitSign cs
    (named? (name.map Char.toLower)).map fun x => if negative then -x else x

end Scalar

/-- The word that a run of digits spells, if it fits. -/
def readWord? (cs : List Char) : Option UInt64 :=
  if cs.isEmpty || !cs.all Char.isDigit then none
  else
    let n := readDigits cs
    if n < 2 ^ 64 then some (UInt64.ofNat n) else none

/-- The word that digits after an optional plus sign spell, if it fits. -/
def readUnsigned? : List Char → Option UInt64
  | '+' :: digits => readWord? digits
  | digits => readWord? digits

end Barrage
