import Barrage.Decimal.Reader

/-!
# TOML values

* `Toml`: a value, or a table that headers and dotted keys built.
* `TableOrigin`: how a table came to be, which decides what may still be added to it.
* `Toml.insertAt?`: adds a value under a dotted key; `Toml.openTable?` and `Toml.openElement?` do the
  work of a header. All three refuse to define a key a second time.
-/

namespace Barrage

/-- How a table came to be. -/
inductive TableOrigin where
  /-- Named on the way to a deeper header. -/
  | implied
  /-- Named on the way by a dotted key. -/
  | dotted
  /-- Opened by a header of its own. -/
  | declared
deriving DecidableEq, Repr

/-- A value or table. A moment is a date, a time or both; nothing is kept of it. -/
inductive Toml where
  | text (value : String)
  | integer (value : Int)
  | real (value : Scalar)
  | boolean (value : Bool)
  | moment
  | array (items : List Toml)
  | inlineTable (fields : List (String × Toml))
  | table (origin : TableOrigin) (fields : List (String × Toml))
  | tables (elements : List (List (String × Toml)))
deriving Inhabited

namespace Toml

/-- The entries of a table. -/
abbrev Fields := List (String × Toml)

/-- The fields with the value of a key replaced, or added at the end. -/
def put (key : String) (value : Toml) : Fields → Fields
  | [] => [(key, value)]
  | (k, v) :: rest => if k = key then (key, value) :: rest else (k, v) :: put key value rest

/-- Changes the fields of the table that a path leads to from a table of the given origin, making
the tables that are not there. The change is told the origin of the table it is made to. A path leads
into the last element of an array of tables. That of a dotted key may not pass through a table that a
header of its own opened. -/
def alter (dotted : Bool) (change : TableOrigin → Fields → Option Fields) :
    TableOrigin → List String → Fields → Option Fields
  | origin, [], fields => change origin fields
  | _, key :: path, fields =>
    match fields.lookup key with
    | none => do
      let origin := if dotted then .dotted else .implied
      let inner ← alter dotted change origin path []
      some (put key (.table origin inner) fields)
    | some (.table origin inner) =>
      if dotted && origin == .declared then none
      else do
        let inner ← alter dotted change origin path inner
        some (put key (.table origin inner) fields)
    | some (.tables elements) =>
      match elements.reverse with
      | [] => none
      | last :: before => do
        let last ← alter dotted change .declared path last
        some (put key (.tables (before.reverse ++ [last])) fields)
    | some _ => none

/-- Adds a value that must not be there yet. -/
def addNew (key : String) (value : Toml) (fields : Fields) : Option Fields :=
  if (fields.lookup key).isSome then none else some (put key value fields)

/-- Adds a value under a dotted key: the tables on its way, then its last part. Only a table that
dotted keys made may be added to from outside. -/
def insertAt? (path : List String) (key : String) (value : Toml) (fields : Fields) :
    Option Fields :=
  alter true (fun origin inner =>
    if path.isEmpty || origin == .dotted then addNew key value inner else none) .declared path fields

/-- Opens the table of a header, which may complete a table that was only implied. -/
def openTable? (path : List String) (key : String) (fields : Fields) : Option Fields :=
  alter false (fun _ inner =>
    match inner.lookup key with
    | none => some (put key (.table .declared []) inner)
    | some (.table .implied old) => some (put key (.table .declared old) inner)
    | some _ => none) .declared path fields

/-- Opens the next element of an array of tables. -/
def openElement? (path : List String) (key : String) (fields : Fields) : Option Fields :=
  alter false (fun _ inner =>
    match inner.lookup key with
    | none => some (put key (.tables [[]]) inner)
    | some (.tables elements) => some (put key (.tables (elements ++ [[]])) inner)
    | some _ => none) .declared path fields

end Toml

end Barrage
