import Barrage.Toml.Value

/-!
# TOML values without quotes

Numbers, truth values and moments are runs of characters; which of them a run is, its shape tells.

* `Toml.ungroup?`: digits whose underscores all stand between two digits, without them.
* `Toml.integer?`, `Toml.real?`, `Toml.isMoment`: the shapes.
* `Toml.plain?`: the value of a run.
-/

namespace Barrage

namespace Toml

/-- Digits without the underscores between them. -/
def ungroup? (isDigit : Char → Bool) : List Char → Option (List Char)
  | [] => none
  | [c] => if isDigit c then some [c] else none
  | c :: '_' :: rest => if isDigit c then (ungroup? isDigit rest).map (c :: ·) else none
  | c :: rest => if isDigit c then (ungroup? isDigit rest).map (c :: ·) else none

/-- The value of a digit in a base up to sixteen. -/
def digitIn? (base : Nat) (c : Char) : Option Nat :=
  let value? :=
    if c.isDigit then some (digitValue c)
    else if 'a' ≤ c && c ≤ 'f' then some (c.toNat - 'a'.toNat + 10)
    else if 'A' ≤ c && c ≤ 'F' then some (c.toNat - 'A'.toNat + 10)
    else none
  value?.filter (· < base)

/-- The number that digits of a base spell. -/
def inBase? (base : Nat) (cs : List Char) : Option Int := do
  let digits ← ungroup? (fun c => (digitIn? base c).isSome) cs
  some (digits.foldl (fun n c => base * n + (digitIn? base c).getD 0) 0 : Nat)

/-- Digits of a whole number: no zero comes before another digit. -/
def wholeDigits? (cs : List Char) : Option (List Char) := do
  let digits ← ungroup? Char.isDigit cs
  match digits with
  | '0' :: _ :: _ => none
  | _ => some digits

/-- The whole number that a run spells, in one of four bases. -/
def integer? : List Char → Option Int
  | '0' :: 'x' :: rest => inBase? 16 rest
  | '0' :: 'o' :: rest => inBase? 8 rest
  | '0' :: 'b' :: rest => inBase? 2 rest
  | cs => do
    let (negative, rest) := splitSign cs
    let digits ← wholeDigits? rest
    some (if negative then -(readDigits digits : Int) else readDigits digits)

/-- The digits after a point, if there is one. -/
def fraction? : List Char → Option (List Char)
  | [] => some []
  | '.' :: rest => ungroup? Char.isDigit rest
  | _ => none

/-- The exponent of a run, if there is one. -/
def exponent? : List Char → Option Int
  | [] => some 0
  | _ :: rest => do
    let (negative, rest) := splitSign rest
    let digits ← ungroup? Char.isDigit rest
    some (if negative then -(readDigits digits : Int) else readDigits digits)

/-- The numeral of a run with a point or an exponent. -/
def numeral? (cs : List Char) : Option Decimal := do
  let (negative, rest) := splitSign cs
  let isExponentMark (c : Char) : Bool := c == 'e' || c == 'E'
  let significand := rest.takeWhile (!isExponentMark ·)
  let whole ← wholeDigits? (significand.takeWhile (· != '.'))
  let fraction ← fraction? (significand.dropWhile (· != '.'))
  let exponent ← exponent? (rest.dropWhile (!isExponentMark ·))
  some ⟨negative, readDigits (whole ++ fraction), exponent - fraction.length⟩

/-- The scalar that a run spells: a numeral within the range of sixty-four bits, or a name. -/
def real? (cs : List Char) : Option Scalar :=
  let (negative, name) := splitSign cs
  if name = ['i', 'n', 'f'] || name = ['n', 'a', 'n'] then
    (Scalar.named? name).map fun x => if negative then -x else x
  else (numeral? cs).bind Decimal.toScalarTwice?

/-- A number of exactly `count` digits. -/
def digits? (count : Nat) (cs : List Char) : Option Nat :=
  if cs.length = count && cs.all Char.isDigit then some (readDigits cs) else none

/-- The number of days in a month. -/
def daysIn (year month : Nat) : Nat :=
  if month = 2 then
    if year % 4 = 0 && (year % 100 != 0 || year % 400 = 0) then 29 else 28
  else if month = 4 || month = 6 || month = 9 || month = 11 then 30
  else 31

/-- Whether a run is a date. -/
def isDate (cs : List Char) : Bool :=
  match cs.splitOn '-' with
  | [y, m, d] =>
    match digits? 4 y, digits? 2 m, digits? 2 d with
    | some year, some month, some day =>
      1 ≤ month && month ≤ 12 && 1 ≤ day && day ≤ daysIn year month
    | _, _, _ => false
  | _ => false

/-- Whether a run is a number of seconds. -/
def isSeconds (cs : List Char) : Bool :=
  let whole := cs.takeWhile (· != '.')
  let fraction := cs.drop whole.length
  (digits? 2 whole).any (· ≤ 60)
    && (fraction.isEmpty || (fraction.length ≥ 2 && (fraction.drop 1).all Char.isDigit))

/-- Whether a run is a time of day. -/
def isTime (cs : List Char) : Bool :=
  match cs.splitOn ':' with
  | [h, m] => (digits? 2 h).any (· ≤ 23) && (digits? 2 m).any (· ≤ 59)
  | [h, m, s] => (digits? 2 h).any (· ≤ 23) && (digits? 2 m).any (· ≤ 59) && isSeconds s
  | _ => false

/-- Whether a run is a time of day with its distance from universal time, if there is one. -/
def isOffsetTime (cs : List Char) : Bool :=
  let time := cs.takeWhile fun c => c.isDigit || c == ':' || c == '.'
  isTime time &&
    match cs.drop time.length with
    | [] => true
    | ['Z'] | ['z'] => true
    | '+' :: offset | '-' :: offset =>
      match offset.splitOn ':' with
      | [h, m] => (digits? 2 h).any (· ≤ 23) && (digits? 2 m).any (· ≤ 59)
      | _ => false
    | _ => false

/-- Whether a run is a date, a time or both; a space may stand between them. -/
def isMoment (cs : List Char) : Bool :=
  if isDate cs || isTime cs then true
  else
    isDate (cs.take 10) &&
      match cs.drop 10 with
      | c :: time => (c == 'T' || c == 't' || c == ' ') && isOffsetTime time
      | [] => false

/-- Whether a whole number fits one hundred and twenty-eight bits, with or without a sign. -/
def isInReach (n : Int) : Bool := -(2 ^ 127) ≤ n && n < 2 ^ 128

/-- The value of a run without quotes. -/
def plain? (run : List Char) : Option Toml :=
  if run = ['t', 'r', 'u', 'e'] then some (.boolean true)
  else if run = ['f', 'a', 'l', 's', 'e'] then some (.boolean false)
  else
    match integer? run with
    | some n => if isInReach n then some (.integer n) else none
    | none =>
      match real? run with
      | some x => some (.real x)
      | none => if isMoment run then some .moment else none

/-- The characters of a run without quotes. -/
def isRunChar (c : Char) : Bool :=
  c.isAlphanum || c == '+' || c == '-' || c == '_' || c == '.' || c == ':'

/-- The run at the front of a text, and the rest. A date goes on past a space if a time of day
follows it. -/
def splitRun (cs : List Char) : List Char × List Char :=
  let run := cs.takeWhile isRunChar
  let rest := cs.dropWhile isRunChar
  match rest with
  | ' ' :: after =>
    let time := after.takeWhile isRunChar
    if isDate run && (time.take 2).all Char.isDigit && (time.drop 2).head? == some ':' then
      (run ++ ' ' :: time, after.drop time.length)
    else (run, rest)
  | _ => (run, rest)

end Toml

end Barrage
