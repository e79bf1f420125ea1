import Barrage.Document.Basic
import Barrage.Except
import Barrage.Pattern.Within

/-!
# Documents that define what they need

* `Document.Covers`: a document defines all labels of a list. `Document.Closed`: it defines all that it
  needs itself.
* `Document.validate_iff`, `Draft.build_closed`: a document that was checked is closed.
* `Document.Closed.action`, `Document.Closed.fire`, `Document.Closed.bullet`: a closed document has the
  definition of a label that it covers, and covers what that definition needs.
-/

namespace Barrage

namespace Document

/-- A document defines all labels of a list. -/
def Covers (doc : Document) (mentions : List Mention) : Prop :=
  ∀ mention ∈ mentions, doc.defines mention = true

/-- A document defines all labels that it needs. -/
def Closed (doc : Document) : Prop := doc.Covers doc.references

variable {doc : Document} {label : String}

/-- What a document covers of several nodes it covers of each. -/
theorem covers_referencesOfAll {l : List Node} :
    doc.Covers (Node.referencesOfAll l) ↔ ∀ n ∈ l, doc.Covers n.references := by
  rw [Node.referencesOfAll_eq, Covers]
  simp only [List.mem_flatMap, forall_exists_index, and_imp]
  exact ⟨fun h n hn m hm => h m n hn hm, fun h m n hn hm => h n hn m hm⟩

theorem covers_action {a : Action Node} :
    doc.Covers a.references ↔ ∀ n ∈ a.children, doc.Covers n.references := by
  rw [← covers_referencesOfAll]
  cases a
  rfl

theorem covers_bulletDef {d : BulletDef Node} :
    doc.Covers d.references ↔ ∀ n ∈ d.actions, doc.Covers n.references := by
  rw [← covers_referencesOfAll]
  cases d
  rfl

/-- A document is accepted exactly if it is closed. -/
theorem validate_iff : doc.validate = .ok () ↔ doc.Closed := by
  rw [validate]
  cases hfind : doc.references.find? fun mention => !doc.defines mention with
  | none => exact ⟨fun _ m hm => by simpa using List.find?_eq_none.1 hfind m hm, fun _ => rfl⟩
  | some mention =>
    refine ⟨fun h => (by cases h), fun h => ?_⟩
    have hdefined := h mention (List.mem_of_find?_eq_some hfind)
    have hmissing := List.find?_some hfind
    simp [hdefined] at hmissing

/-! ## Definitions of labels -/

theorem mem_of_resolve {τ : Type} {table : Table τ} {kind : DefinitionKind} {x : τ}
    (h : table.resolve kind label = .ok x) : (label, x) ∈ table := by
  unfold Table.resolve at h
  cases hl : table.lookup label with
  | none =>
    rw [hl] at h
    cases h
  | some y =>
    rw [hl] at h
    cases h
    obtain ⟨before, after, htable, -⟩ := List.lookup_eq_some_iff.1 hl
    simp [htable]

theorem resolve_of_isSome {τ : Type} {table : Table τ} (h : (table.lookup label).isSome = true)
    (kind : DefinitionKind) : ∃ x, table.resolve kind label = .ok x := by
  obtain ⟨x, hx⟩ := Option.isSome_iff_exists.1 h
  exact ⟨x, by rw [Table.resolve, hx]⟩

/-- A closed document has the action of a label that it covers, and covers what that needs. -/
theorem Closed.action (h : doc.Closed) (hl : doc.defines (.action, label) = true) :
    ∃ a, doc.resolveAction label = .ok a ∧ doc.Covers a.references := by
  obtain ⟨a, ha⟩ := resolve_of_isSome hl .action
  refine ⟨a, ha, fun m hm => h m ?_⟩
  exact List.mem_append_left _ (List.mem_append_left _
    (List.mem_flatMap.2 ⟨_, mem_of_resolve ha, hm⟩))

/-- A closed document has the fire of a label that it covers, and covers what that needs. -/
theorem Closed.fire (h : doc.Closed) (hl : doc.defines (.fire, label) = true) :
    ∃ f, doc.resolveFire label = .ok f ∧ doc.Covers f.references := by
  obtain ⟨f, hf⟩ := resolve_of_isSome hl .fire
  refine ⟨f, hf, fun m hm => h m ?_⟩
  exact List.mem_append_left _ (List.mem_append_right _
    (List.mem_flatMap.2 ⟨_, mem_of_resolve hf, hm⟩))

/-- A closed document has the bullet definition of a label that it covers, and covers what that
needs. -/
theorem Closed.bullet (h : doc.Closed) (hl : doc.defines (.bullet, label) = true) :
    ∃ d, doc.resolveBullet label = .ok d ∧ doc.Covers d.references := by
  obtain ⟨d, hd⟩ := resolve_of_isSome hl .bullet
  refine ⟨d, hd, fun m hm => h m ?_⟩
  exact List.mem_append_right _ (List.mem_flatMap.2 ⟨_, mem_of_resolve hd, hm⟩)

/-- A label of an action that can be looked up is one that the document defines. -/
theorem defines_of_resolveAction {a : Action Node} (h : doc.resolveAction label = .ok a) :
    doc.defines (.action, label) = true := by
  unfold resolveAction Table.resolve at h
  cases hl : doc.actions.lookup label with
  | none =>
    rw [hl] at h
    cases h
  | some _ => simp [defines, hl]

end Document

/-- A document that was built is closed. -/
theorem Draft.build_closed {draft : Draft} {doc : Document} (h : draft.build = .ok doc) :
    doc.Closed := by
  obtain ⟨doc', -, h⟩ := Except.bind_ok h
  obtain ⟨⟨⟩, hv, h⟩ := Except.bind_ok h
  cases h
  exact Document.validate_iff.1 hv

end Barrage
