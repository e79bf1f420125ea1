import Barrage.Toml.Text

/-!
# TOML documents

* `Toml.value?`: a value, with the arrays and inline tables it holds. The first argument bounds how
  many steps are taken and is never short of what a text of that length needs; the second is how much
  deeper arrays and inline tables may nest.
* `Toml.Place`: the table that lines are added to.
* `Toml.parse?`: the fields of a document, or `none` if it breaks a rule of the format anywhere.
-/

namespace Barrage

namespace Toml

mutual

/-- A value. -/
def value? : Nat → Nat → Reader Toml
  | 0, _, _ => none
  | steps + 1, levels, cs =>
    match cs, levels with
    | '"' :: _, _ | '\'' :: _, _ => (quoted? cs).map fun (s, rest) => (.text s, rest)
    | '[' :: _, 0 | '{' :: _, 0 => none
    | '[' :: rest, levels + 1 => items? steps levels [] (skipGap rest)
    | '{' :: rest, levels + 1 => entries? steps levels [] (skipGap rest)
    | _, _ =>
      let (run, rest) := splitRun cs
      (plain? run).map fun v => (v, rest)

/-- The items of an array that are still to come, and its end. -/
def items? : Nat → Nat → List Toml → Reader Toml
  | 0, _, _, _ => none
  | _ + 1, _, done, ']' :: rest => some (.array done.reverse, rest)
  | steps + 1, levels, done, cs => do
    let (item, rest) ← value? steps levels cs
    match skipGap rest with
    | ',' :: rest => items? steps levels (item :: done) (skipGap rest)
    | ']' :: rest => some (.array (item :: done).reverse, rest)
    | _ => none

/-- The entries of an inline table that are still to come, and its end. Between their parts lines may
end. -/
def entries? : Nat → Nat → Fields → Reader Toml
  | 0, _, _, _ => none
  | _ + 1, _, done, '}' :: rest => some (.inlineTable done, rest)
  | steps + 1, levels, done, cs => do
    let ((path, key), rest) ← key? cs
    match skipGap rest with
    | '=' :: rest => do
      let (item, rest) ← value? steps levels (skipGap rest)
      let done ← insertAt? path key item done
      match skipGap rest with
      | ',' :: rest => entries? steps levels done (skipGap rest)
      | '}' :: rest => some (.inlineTable done, rest)
      | _ => none
    | _ => none

end

/-- The table that lines are added to, as the keys of its header. -/
abbrev Place := List String

/-- Adds an entry to the table of a place. -/
def addEntry? (place : Place) (path : List String) (key : String) (value : Toml)
    (fields : Fields) : Option Fields :=
  alter false (fun _ inner => insertAt? path key value inner) .declared place fields

/-- A header: the table it opens, with the place that follows. -/
def header? (cs : List Char) (fields : Fields) : Option ((Place × Fields) × List Char) :=
  match cs with
  | '[' :: '[' :: rest => do
    let ((path, key), rest) ← key? (skipBlank rest)
    match skipBlank rest with
    | ']' :: ']' :: rest => do
      let fields ← openElement? path key fields
      some ((path ++ [key], fields), rest)
    | _ => none
  | '[' :: rest => do
    let ((path, key), rest) ← key? (skipBlank rest)
    match skipBlank rest with
    | ']' :: rest => do
      let fields ← openTable? path key fields
      some ((path ++ [key], fields), rest)
    | _ => none
  | _ => none

/-- A key with its value. -/
def entry? (cs : List Char) : Option ((List String × String × Toml) × List Char) := do
  let ((path, key), rest) ← key? cs
  match skipBlank rest with
  | '=' :: rest => do
    let (v, rest) ← value? (2 * rest.length + 2) maxNesting (skipBlank rest)
    some ((path, key, v), rest)
  | _ => none

/-- The end of a line after an entry or header: blanks, a comment, and the end itself. -/
def finishLine? (cs : List Char) : Option (List Char) :=
  match skipComment (skipBlank cs) with
  | [] => some []
  | rest => lineEnd? rest

/-- Reads the lines of a document, at most `rounds` of them, into its fields. -/
def lines? : Nat → Place → Fields → List Char → Option Fields
  | 0, _, _, _ => none
  | rounds + 1, place, fields, cs =>
    match skipGap cs with
    | [] => some fields
    | '[' :: rest => do
      let ((place, fields), rest) ← header? ('[' :: rest) fields
      let rest ← finishLine? rest
      lines? rounds place fields rest
    | cs => do
      let ((path, key, v), rest) ← entry? cs
      let fields ← addEntry? place path key v fields
      let rest ← finishLine? rest
      lines? rounds place fields rest

/-- The fields of a document. A byte order mark may stand at its front. -/
def parse? (source : String) : Option Fields :=
  let cs := match source.toList with
    | '\ufeff' :: rest => rest
    | cs => cs
  lines? (cs.length + 1) [] [] cs

end Toml

end Barrage
