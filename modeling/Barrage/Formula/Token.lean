import Barrage.Decimal.Reader
import Barrage.Diagnostic
import Barrage.Formula.Basic

/-!
# The tokens of a formula

* `FormulaError`: what can be wrong with the text of a formula; offsets count bytes.
* `Lexeme`: what stands at one place of the text, a symbol or a blank, and how far it reaches.
* `Token.scan`: all symbols of a text with their offsets, or the first place that is none.
-/

namespace Barrage

/-- How deep parentheses and signs may nest in a formula. -/
def formulaLevels : Nat := 64

/-- What is wrong with the text of a formula. -/
inductive FormulaError where
  | unexpectedChar (ch : Char) (offset : Nat)
  | unexpectedEnd
  | unexpectedToken (offset : Nat)
  | invalidNumber (text : String) (offset : Nat)
  | invalidParam (name : String) (offset : Nat)
  | tooDeep (offset : Nat)
deriving DecidableEq, Repr

instance : Diagnostic FormulaError where
  code
    | .unexpectedChar .. => "PARSE_UNEXPECTED_CHAR"
    | .unexpectedEnd => "PARSE_UNEXPECTED_END"
    | .unexpectedToken .. => "PARSE_UNEXPECTED_TOKEN"
    | .invalidNumber .. => "PARSE_INVALID_NUMBER"
    | .invalidParam .. => "PARSE_INVALID_PARAM"
    | .tooDeep .. => "PARSE_TOO_DEEP"
  message
    | .unexpectedChar ch offset =>
      "unexpected character '" ++ String.singleton ch ++ "' at " ++ toString offset
    | .unexpectedEnd => "unexpected end of expression"
    | .unexpectedToken offset => "unexpected token at " ++ toString offset
    | .invalidNumber text offset => "invalid number '" ++ text ++ "' at " ++ toString offset
    | .invalidParam name offset => "invalid parameter '$" ++ name ++ "' at " ++ toString offset
    | .tooDeep offset =>
      "expression nested deeper than " ++ toString formulaLevels ++ " levels at " ++ toString offset
  severity _ := .authoring

/-- A symbol of the formula notation. -/
inductive Symbol where
  | number (value : Scalar)
  | param (index : UInt64)
  | rank
  | rand
  | op (op : BinaryOp)
  | opening
  | closing
deriving DecidableEq

/-- A symbol and the offset of its first byte. -/
structure Token where
  symbol : Symbol
  offset : Nat
deriving DecidableEq

/-- Spaces, tabs and line ends separate symbols. -/
def isFormulaBlank (c : Char) : Bool := c == ' ' || c == '\t' || c == '\n' || c == '\r'

/-- The characters of a number. -/
def isNumberChar (c : Char) : Bool := c.isDigit || c == '.'

/-- What a name after a dollar sign stands for; parameters count from one. -/
def Symbol.ofName? (name : List Char) : Option Symbol :=
  if name = ['r', 'a', 'n', 'k'] then some .rank
  else if name = ['r', 'a', 'n', 'd'] then some .rand
  else
    match readWord? name with
    | some index => if index = 0 then none else some (.param index)
    | none => none

/-- The symbol of a character that is one on its own. -/
def Symbol.ofChar? : Char → Option Symbol
  | '+' => some (.op .add)
  | '-' => some (.op .sub)
  | '*' => some (.op .mul)
  | '/' => some (.op .div)
  | '%' => some (.op .rem)
  | '(' => some .opening
  | ')' => some .closing
  | _ => none

/-- What stands at one place of a text: a symbol or, without one, a blank, and how many characters
after the first belong to it. -/
structure Lexeme where
  symbol : Option Symbol
  following : Nat
deriving DecidableEq

/-- The lexeme that starts with `c`, which stands at `offset` before `rest`. A number and a name
reach as far as they can. -/
def Lexeme.read (offset : Nat) (c : Char) (rest : List Char) : Except FormulaError Lexeme :=
  if isFormulaBlank c then .ok ⟨none, 0⟩
  else if isNumberChar c then
    let following := rest.takeWhile isNumberChar
    match Decimal.ofDigitsAndPoint? (c :: following) with
    | some d => .ok ⟨some (.number d.toScalar), following.length⟩
    | none => .error (.invalidNumber (String.ofList (c :: following)) offset)
  else if c = '$' then
    let name := rest.takeWhile Char.isAlphanum
    match Symbol.ofName? name with
    | some symbol => .ok ⟨some symbol, name.length⟩
    | none => .error (.invalidParam (String.ofList name) offset)
  else
    match Symbol.ofChar? c with
    | some symbol => .ok ⟨some symbol, 0⟩
    | none => .error (.unexpectedChar c offset)

namespace Token

/-- The tokens of a text that starts at `offset`, its first `skip` characters left out because they
belong to a lexeme already read. -/
def scanFrom (skip offset : Nat) : List Char → Except FormulaError (List Token)
  | [] => .ok []
  | c :: rest =>
    match skip with
    | skip + 1 => scanFrom skip (offset + c.utf8Size) rest
    | 0 => do
      let lexeme ← Lexeme.read offset c rest
      let tokens ← scanFrom lexeme.following (offset + c.utf8Size) rest
      pure (match lexeme.symbol with
        | some symbol => ⟨symbol, offset⟩ :: tokens
        | none => tokens)

/-- The tokens of a text. -/
def scan (source : String) : Except FormulaError (List Token) :=
  scanFrom 0 0 source.toList

end Token

end Barrage
