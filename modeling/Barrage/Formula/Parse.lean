import Barrage.Formula.Token

/-!
# Reading a formula

Sums are looser than products, both associate to the left, and a sign binds tighter than either. A
sign of plus and a pair of parentheses leave nothing behind.

* `Formula.chain`: operands joined by the operators of one level.
* `Formula.operand`: a sign, a pair of parentheses or a single symbol; recursion is on the number
  of signs and parentheses that may still be opened.
* `Formula.parse`: the formula of a text. All of the text is split into tokens first, so a bad
  symbol anywhere comes before a bad order of symbols.
-/

namespace Barrage

namespace Formula

/-- Reads a formula off the front of a list of tokens. -/
abbrev Reader := List Token → Except FormulaError (Formula × List Token)

/-- Goes on after `lhs` with operators of one level and their operands; an operand uses up a token,
so as many rounds as there are tokens are enough. -/
def chain (joins : BinaryOp → Bool) (operand : Reader) : Nat → Formula → Reader
  | rounds + 1, lhs, ⟨.op op, offset⟩ :: tokens =>
    if joins op then do
      let (rhs, tokens) ← operand tokens
      chain joins operand rounds (.binary op lhs rhs) tokens
    else .ok (lhs, ⟨.op op, offset⟩ :: tokens)
  | _, lhs, tokens => .ok (lhs, tokens)

/-- Operands joined by operators of one level, associated to the left. -/
def leftAssociated (joins : BinaryOp → Bool) (operand : Reader) : Reader := fun tokens => do
  let (lhs, tokens) ← operand tokens
  chain joins operand tokens.length lhs tokens

/-- Products joined to a sum, given how to read one factor. -/
def sum (factor : Reader) : Reader :=
  leftAssociated (fun op => op.isAdditive) (leftAssociated (fun op => !op.isAdditive) factor)

/-- The token that ends a parenthesis. -/
def close (inner : Formula) : Reader
  | ⟨.closing, _⟩ :: tokens => .ok (inner, tokens)
  | token :: _ => .error (.unexpectedToken token.offset)
  | [] => .error .unexpectedEnd

/-- One operand, in which `levels` more signs and parentheses may be open at the same time. -/
def operand : Nat → Reader
  | _, [] => .error .unexpectedEnd
  | _, ⟨.number value, _⟩ :: tokens => .ok (.number value, tokens)
  | _, ⟨.param index, _⟩ :: tokens => .ok (.param index, tokens)
  | _, ⟨.rank, _⟩ :: tokens => .ok (.rank, tokens)
  | _, ⟨.rand, _⟩ :: tokens => .ok (.rand, tokens)
  | levels, ⟨.op .sub, offset⟩ :: tokens =>
    match levels with
    | 0 => .error (.tooDeep offset)
    | levels + 1 => do
      let (inner, tokens) ← operand levels tokens
      .ok (.neg inner, tokens)
  | levels, ⟨.op .add, offset⟩ :: tokens =>
    match levels with
    | 0 => .error (.tooDeep offset)
    | levels + 1 => operand levels tokens
  | levels, ⟨.opening, offset⟩ :: tokens =>
    match levels with
    | 0 => .error (.tooDeep offset)
    | levels + 1 => do
      let (inner, tokens) ← sum (operand levels) tokens
      close inner tokens
  | _, ⟨_, offset⟩ :: _ => .error (.unexpectedToken offset)

/-- The formula that all of the tokens spell. -/
def ofTokens (tokens : List Token) : Except FormulaError Formula := do
  let (f, rest) ← sum (operand formulaLevels) tokens
  match rest with
  | [] => .ok f
  | token :: _ => .error (.unexpectedToken token.offset)

/-- The formula that a text spells. -/
def parse (source : String) : Except FormulaError Formula :=
  Token.scan source >>= ofTokens

end Formula

end Barrage
