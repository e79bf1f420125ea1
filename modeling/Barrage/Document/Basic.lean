import Barrage.Diagnostic
import Barrage.Pattern.Node

/-!
# Documents

A document holds the labelled definitions of a pattern, one table per kind.

* `Draft`: the definitions as they were given, in order.
* `Draft.index`: a document, unless a definition lacks a label or shares one with another of its
  kind.
* `Document.validate`: whether every label that is needed anywhere names a definition.
* `Draft.build`: both.
* `Document.topLabels`: the labels of the entry points.
-/

namespace Barrage

/-- What is wrong with the labels of a document. -/
inductive DocumentError where
  | notFound (kind : DefinitionKind) (label : String)
  | duplicateLabel (kind : DefinitionKind) (label : String)
  | missingLabel (kind : DefinitionKind)
deriving DecidableEq, Repr

instance : Diagnostic DocumentError where
  code
    | .notFound .. => "DOCUMENT_DEFINITION_NOT_FOUND"
    | .duplicateLabel .. => "DOCUMENT_DUPLICATE_LABEL"
    | .missingLabel .. => "DOCUMENT_MISSING_LABEL"
  message
    | .notFound kind label => kind.name ++ " definition '" ++ label ++ "' not found"
    | .duplicateLabel kind label => kind.name ++ " label '" ++ label ++ "' defined more than once"
    | .missingLabel kind => "top-level " ++ kind.name ++ " definition has no label"
  severity _ := .authoring

/-- Definitions of one kind by label. -/
abbrev Table (τ : Type) := List (String × τ)

/-- The labelled definitions of a pattern. -/
structure Document where
  actions : Table (Action Node)
  fires : Table (Fire Node)
  bullets : Table (BulletDef Node)
deriving Inhabited

/-- Definitions as given, not yet looked at. -/
structure Draft where
  actions : List (Action Node)
  fires : List (Fire Node)
  bullets : List (BulletDef Node)
deriving Inhabited

namespace Table

variable {τ : Type}

/-- The definition with a label. -/
def resolve (table : Table τ) (kind : DefinitionKind) (label : String) : Except DocumentError τ :=
  match table.lookup label with
  | some definition => .ok definition
  | none => .error (.notFound kind label)

/-- Adds definitions to a table one by one; the first without a label or with a label that is taken
is an error. -/
def addAll (kind : DefinitionKind) (labelOf : τ → Option String) :
    Table τ → List τ → Except DocumentError (Table τ)
  | table, [] => .ok table
  | table, item :: rest =>
    match labelOf item with
    | none => .error (.missingLabel kind)
    | some label =>
      if (table.lookup label).isSome then .error (.duplicateLabel kind label)
      else addAll kind labelOf (table ++ [(label, item)]) rest

end Table

namespace Document

/-- The action with a label. -/
def resolveAction (doc : Document) (label : String) : Except DocumentError (Action Node) :=
  doc.actions.resolve .action label

/-- The fire with a label. -/
def resolveFire (doc : Document) (label : String) : Except DocumentError (Fire Node) :=
  doc.fires.resolve .fire label

/-- The bullet definition with a label. -/
def resolveBullet (doc : Document) (label : String) : Except DocumentError (BulletDef Node) :=
  doc.bullets.resolve .bullet label

/-- Whether a label names a definition of the right kind. -/
def defines (doc : Document) : Mention → Bool
  | (.action, label) => (doc.actions.lookup label).isSome
  | (.fire, label) => (doc.fires.lookup label).isSome
  | (.bullet, label) => (doc.bullets.lookup label).isSome

/-- Every label that is needed anywhere in the document: by its actions, its fires and its bullet
definitions, in this order. -/
def references (doc : Document) : List Mention :=
  doc.actions.flatMap (fun entry => entry.2.references)
    ++ doc.fires.flatMap (fun entry => entry.2.references)
    ++ doc.bullets.flatMap (fun entry => entry.2.references)

/-- The first label that is needed and names no definition of its kind is an error. -/
def validate (doc : Document) : Except DocumentError Unit :=
  match doc.references.find? (fun mention => !doc.defines mention) with
  | some (kind, label) => .error (.notFound kind label)
  | none => .ok ()

/-- The labels of the entry points, in order: those that start with `top`. -/
def topLabels (doc : Document) : List String :=
  let labels := doc.actions.map Prod.fst
  (labels.filter fun label => ['t', 'o', 'p'].isPrefixOf label.toList).mergeSort
    (fun a b => decide (a ≤ b))

end Document

namespace Draft

/-- The tables of a draft, its references not looked at. -/
def index (draft : Draft) : Except DocumentError Document := do
  let actions ← Table.addAll .action Action.label [] draft.actions
  let fires ← Table.addAll .fire Fire.label [] draft.fires
  let bullets ← Table.addAll .bullet BulletDef.label [] draft.bullets
  pure ⟨actions, fires, bullets⟩

/-- The document of a draft, every reference in it checked. -/
def build (draft : Draft) : Except DocumentError Document := do
  let doc ← draft.index
  doc.validate
  pure doc

end Draft

end Barrage
