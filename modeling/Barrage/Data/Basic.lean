import Barrage.Decimal.Basic

/-!
# Structured data

Patterns are exchanged as structured data: records, lists, texts and numbers.

* `Data`: the values; `Data.ofNumeral` is the number that a numeral stands for.
* `Data.fields?`: the parts of a structure, by name from a record or by place from a list.
* `Data.variant?`: the alternative that a tagged value names, with what it holds.
-/

namespace Barrage

/-- A value to be exchanged. -/
inductive Data where
  | null
  | boolean (value : Bool)
  | integer (value : Int)
  | real (value : Scalar)
  | text (value : String)
  | list (items : List Data)
  | record (fields : List (String × Data))
deriving Inhabited

namespace Data

/-- The number that a numeral stands for. One without point and exponent is a whole number as long as
it fits a signed or an unsigned word, and a zero with a minus sign is none; all others are rounded
to sixty-four bits and then to a scalar. -/
def ofNumeral (isWhole : Bool) (d : Decimal) : Option Data :=
  let n : Int := if d.negative then -d.digits else d.digits
  if isWhole && -(2 ^ 63) ≤ n && n < 2 ^ 64 && !(d.negative && d.digits = 0) then
    some (.integer n)
  else d.toScalarTwice?.map .real

mutual

/-- How deep lists and records nest in a value. -/
def depth : Data → Nat
  | .list items => depthOfAll items + 1
  | .record fields => depthOfFields fields + 1
  | .null | .boolean _ | .integer _ | .real _ | .text _ => 0
termination_by structural d => d

/-- The greatest depth among several values. -/
def depthOfAll : List Data → Nat
  | [] => 0
  | d :: rest => max d.depth (depthOfAll rest)
termination_by structural l => l

/-- The greatest depth among the fields of a record. -/
def depthOfFields : List (String × Data) → Nat
  | [] => 0
  | (_, d) :: rest => max d.depth (depthOfFields rest)
termination_by structural l => l

end

/-- The parts of a structure with the given field names, in their order: those of a record by name,
some of which may be missing, those of a list by place, all of which have to be there. -/
def fields? (names : List String) : Data → Option (List (Option Data))
  | .record fields => some (names.map fun name => fields.lookup name)
  | .list items => if items.length = names.length then some (items.map some) else none
  | _ => none

/-- The parts of a structure that is never written as a list. -/
def recordFields? (names : List String) : Data → Option (List (Option Data))
  | .record fields => some (names.map fun name => fields.lookup name)
  | _ => none

/-- The alternative that a value names: a text is the name of one that holds nothing, a record of one
field is a name and what it holds. -/
def variant? : Data → Option (String × Option Data)
  | .text name => some (name, none)
  | .record [(name, payload)] => some (name, some payload)
  | _ => none

/-- The name of an alternative that holds nothing. -/
def unitVariant? (d : Data) : Option String :=
  match d.variant? with
  | some (name, none) => some name
  | some (name, some .null) => some name
  | _ => none

/-- A part that has to be there. -/
def required {α : Type} (read : Data → Option α) (part : Option Data) : Option α :=
  part.bind read

/-- A part that may be missing; so may its value. -/
def optional {α : Type} (read : Data → Option α) : Option Data → Option (Option α)
  | none => some none
  | some .null => some none
  | some d => (read d).map some

/-- A text. -/
def toText? : Data → Option String
  | .text s => some s
  | _ => none

/-- A scalar; whole numbers count as numbers. -/
def toScalar? : Data → Option Scalar
  | .integer n => some (Scalar.ofInt n)
  | .real x => some x
  | _ => none

/-- An unsigned word. -/
def toWord? : Data → Option UInt64
  | .integer n => if 0 ≤ n && n < 2 ^ 64 then some (UInt64.ofNat n.toNat) else none
  | _ => none

/-- The items of a list, each read the same way. -/
def toList? {α : Type} (read : Data → Option α) : Data → Option (List α)
  | .list items => items.mapM read
  | _ => none

/-- A scalar as data; one that is not finite has no number. -/
def ofScalar (x : Scalar) : Data := if x.isFinite then .real x else .null

/-- A word as data. -/
def ofWord (n : UInt64) : Data := .integer n.toNat

/-- An optional part as data. -/
def ofOption {α : Type} (write : α → Data) : Option α → Data
  | none => .null
  | some a => write a

/-- An alternative that holds something. -/
def tagged (name : String) (payload : Data) : Data := .record [(name, payload)]

end Data

end Barrage
