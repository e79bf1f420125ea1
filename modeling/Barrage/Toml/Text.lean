import Barrage.Toml.Plain

/-!
# TOML texts, keys and blanks

* `skipBlank`, `skipComment`, `skipLines`: what may stand between the parts of a document.
* `Toml.quoted?`: the four spellings of a text.
* `Toml.key?`: a key with its dots.
-/

namespace Barrage

namespace Toml

/-- Takes a value off the front of a text, or refuses. -/
abbrev Reader (α : Type) := List Char → Option (α × List Char)

/-- Characters that may stand nowhere in a document unescaped: the control characters other than the
tab and the ends of lines. -/
def isControl (c : Char) : Bool := (c.toNat < 32 && c != '\t') || c.toNat == 127

/-- Spaces and tabs. -/
def isBlank (c : Char) : Bool := c == ' ' || c == '\t'

/-- The text after its leading spaces and tabs. -/
def skipBlank (cs : List Char) : List Char := cs.dropWhile isBlank

/-- The end of a line, in either spelling. -/
def lineEnd? : List Char → Option (List Char)
  | '\n' :: rest => some rest
  | '\r' :: '\n' :: rest => some rest
  | _ => none

/-- The text after a comment, up to the end of its line. -/
def skipComment : List Char → List Char
  | '#' :: rest => rest.dropWhile fun c => !isControl c
  | cs => cs

/-- The text after blanks, comments and ends of lines, at most `rounds` lines of them. -/
def skipLines : Nat → List Char → List Char
  | 0, cs => cs
  | rounds + 1, cs =>
    let rest := skipComment (skipBlank cs)
    match lineEnd? rest with
    | some rest => skipLines rounds rest
    | none => rest

/-- The text after whatever may stand between two items. -/
def skipGap (cs : List Char) : List Char := skipLines (cs.length + 1) cs

/-- The character that a run of hexadecimal digits names. -/
def namedChar? (digits : List Char) (count : Nat) : Option Char := do
  if digits.length < count then none
  else
    let n ← digits.foldlM (fun n c => (digitIn? 16 c).map (16 * n + ·)) 0
    if n.isValidChar then some (Char.ofNat n) else none

/-- The character after a backslash, and how many characters spell it. -/
def escape? : List Char → Option (Char × List Char)
  | 'b' :: rest => some (Char.ofNat 8, rest)
  | 't' :: rest => some ('\t', rest)
  | 'n' :: rest => some ('\n', rest)
  | 'f' :: rest => some (Char.ofNat 12, rest)
  | 'r' :: rest => some ('\r', rest)
  | 'e' :: rest => some (Char.ofNat 27, rest)
  | '"' :: rest => some ('"', rest)
  | '\\' :: rest => some ('\\', rest)
  | 'x' :: rest => (namedChar? (rest.take 2) 2).map fun c => (c, rest.drop 2)
  | 'u' :: rest => (namedChar? (rest.take 4) 4).map fun c => (c, rest.drop 4)
  | 'U' :: rest => (namedChar? (rest.take 8) 8).map fun c => (c, rest.drop 8)
  | _ => none

/-- The rest of a text on one line in double quotes. -/
def basic? : Nat → List Char → Reader String
  | _, _, [] => none
  | _, done, '"' :: rest => some (String.ofList done.reverse, rest)
  | rounds + 1, done, '\\' :: rest => do
    let (c, rest) ← escape? rest
    basic? rounds (c :: done) rest
  | rounds + 1, done, c :: rest => if isControl c then none else basic? rounds (c :: done) rest
  | 0, _, _ => none

/-- The rest of a text on one line in single quotes. -/
def literal? (cs : List Char) : Option (String × List Char) :=
  match cs.dropWhile (fun c => c != '\'' && !isControl c) with
  | '\'' :: rest =>
    some (String.ofList (cs.takeWhile fun c => c != '\'' && !isControl c), rest)
  | _ => none

/-- The end of a text over several lines that has just met three quotes: up to two more quotes
belong to the text. -/
def closeLines (quote : Char) (done : List Char) (rest : List Char) : String × List Char :=
  let extra := ((rest.takeWhile (· == quote)).take 2).length
  (String.ofList (done.reverse ++ List.replicate extra quote), rest.drop extra)

/-- The text after blanks and ends of lines, at most `rounds` lines of them. -/
def skipEmptyLines : Nat → List Char → List Char
  | 0, cs => cs
  | rounds + 1, cs =>
    let rest := skipBlank cs
    match lineEnd? rest with
    | some rest => skipEmptyLines rounds rest
    | none => rest

/-- The text after a backslash at the end of a line and all blanks and line ends that follow; none if
something else stands on the line of the backslash. -/
def joinLine? (cs : List Char) : Option (List Char) :=
  (lineEnd? (skipBlank cs)).map fun rest => skipEmptyLines (rest.length + 1) rest

/-- The rest of a text over several lines in double quotes. -/
def basicLines? : Nat → List Char → Reader String
  | _, _, [] => none
  | _, done, '"' :: '"' :: '"' :: rest => some (closeLines '"' done rest)
  | rounds + 1, done, '\\' :: rest =>
    match joinLine? rest with
    | some rest => basicLines? rounds done rest
    | none => do
      let (c, rest) ← escape? rest
      basicLines? rounds (c :: done) rest
  | rounds + 1, done, c :: rest =>
    match lineEnd? (c :: rest) with
    | some rest => basicLines? rounds ('\n' :: done) rest
    | none => if isControl c then none else basicLines? rounds (c :: done) rest
  | 0, _, _ => none

/-- The rest of a text over several lines in single quotes. -/
def literalLines? : Nat → List Char → Reader String
  | _, _, [] => none
  | _, done, '\'' :: '\'' :: '\'' :: rest => some (closeLines '\'' done rest)
  | rounds + 1, done, c :: rest =>
    match lineEnd? (c :: rest) with
    | some rest => literalLines? rounds ('\n' :: done) rest
    | none => if isControl c then none else literalLines? rounds (c :: done) rest
  | 0, _, _ => none

/-- The text after the end of a line that directly follows three opening quotes. -/
def dropLineEnd (cs : List Char) : List Char := (lineEnd? cs).getD cs

/-- A text on one line, in double or single quotes. -/
def quotedKey? : Reader String
  | '"' :: rest => basic? rest.length [] rest
  | '\'' :: rest => literal? rest
  | _ => none

/-- A text in any spelling. -/
def quoted? : Reader String
  | '"' :: '"' :: '"' :: rest =>
    let rest := dropLineEnd rest
    basicLines? rest.length [] rest
  | '\'' :: '\'' :: '\'' :: rest =>
    let rest := dropLineEnd rest
    literalLines? rest.length [] rest
  | cs => quotedKey? cs

/-- The characters of a key without quotes. -/
def isKeyChar (c : Char) : Bool := c.isAlphanum || c == '_' || c == '-'

/-- One part of a key. -/
def keyPart? (cs : List Char) : Option (String × List Char) :=
  let name := cs.takeWhile isKeyChar
  if name.isEmpty then quotedKey? cs
  else some (String.ofList name, cs.dropWhile isKeyChar)

/-- The parts of a key that follow the first, at most `rounds` of them: those on the way, and the
last. -/
def keyTail? : Nat → String → Reader (List String × String)
  | 0, _, _ => none
  | rounds + 1, first, cs =>
    match skipBlank cs with
    | '.' :: rest => do
      let (part, rest) ← keyPart? (skipBlank rest)
      let ((path, last), rest) ← keyTail? rounds part rest
      some ((first :: path, last), rest)
    | rest => some (([], first), rest)

/-- How deep arrays and inline tables may nest, and how many parts a key may have. -/
def maxNesting : Nat := 80

/-- A key with its dots: the parts on the way and the last one. -/
def key? (cs : List Char) : Option ((List String × String) × List Char) := do
  let (first, rest) ← keyPart? cs
  let ((path, last), rest) ← keyTail? (cs.length + 1) first rest
  if path.length < maxNesting then some ((path, last), rest) else none

end Toml

end Barrage
