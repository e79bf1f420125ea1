import Barrage.Document.Closed
import Barrage.Document.Labels

/-!
# Which definitions make a document

* `Draft.WellLabelled`, `Draft.LabelFault`: the labels of a draft are in order, or the first that is not.
* `Draft.Mentions`, `Draft.Defines`: the labels that the operations of a draft need, anywhere in it, and
  those that it defines.
* `Document.Reorders`: the same definitions in another order. Tables promise no order, so what is said of
  a document is said of all of these.
* `document_built_iff`: which drafts are accepted, what their documents give for a label, and which error
  the others are rejected with.
-/

namespace Barrage

namespace Draft

/-- Every definition has a label, and no two of one kind have the same. -/
structure WellLabelled (draft : Draft) : Prop where
  actions : Barrage.WellLabelled Action.label draft.actions
  fires : Barrage.WellLabelled Fire.label draft.fires
  bullets : Barrage.WellLabelled BulletDef.label draft.bullets

/-- The first definition with a fault in its label, as an error: actions come before fires, and those
before bullet definitions. -/
inductive LabelFault (draft : Draft) (e : DocumentError) : Prop
  | action (h : Barrage.LabelFault .action Action.label draft.actions e)
  | fire (hactions : Barrage.WellLabelled Action.label draft.actions)
    (h : Barrage.LabelFault .fire Fire.label draft.fires e)
  | bullet (hactions : Barrage.WellLabelled Action.label draft.actions)
    (hfires : Barrage.WellLabelled Fire.label draft.fires)
    (h : Barrage.LabelFault .bullet BulletDef.label draft.bullets e)

/-- The operations at the top of the definitions. -/
def nodes (draft : Draft) : List Node :=
  draft.actions.flatMap Action.children ++ draft.fires.map Node.fire
    ++ draft.bullets.flatMap BulletDef.actions

/-- Some operation needs a definition, however deep in the draft it is. -/
def Mentions (draft : Draft) (m : Mention) : Prop :=
  ∃ n ∈ draft.nodes, ∃ c, n.Within c ∧ c.Names m

/-- A definition of the right kind has a label. -/
def Defines (draft : Draft) : Mention → Prop
  | (.action, label) => ∃ a ∈ draft.actions, a.label = some label
  | (.fire, label) => ∃ f ∈ draft.fires, f.label = some label
  | (.bullet, label) => ∃ d ∈ draft.bullets, d.label = some label

/-- Everything that is mentioned is defined. -/
def Complete (draft : Draft) : Prop := ∀ m, draft.Mentions m → draft.Defines m

/-- Some label is mentioned and not defined, and the error says which. -/
def Dangles (draft : Draft) (e : DocumentError) : Prop :=
  ∃ kind label, e = .notFound kind label ∧ draft.Mentions (kind, label) ∧ ¬draft.Defines (kind, label)

theorem mentions_iff {draft : Draft} {m : Mention} : draft.Mentions m ↔
    (∃ a ∈ draft.actions, m ∈ a.references) ∨ (∃ f ∈ draft.fires, m ∈ f.references) ∨
      ∃ d ∈ draft.bullets, m ∈ d.references := by
  have haction : ∀ a : Action Node, m ∈ a.references ↔ ∃ n ∈ a.children, m ∈ n.references := by
    rintro ⟨label, children⟩
    rw [Action.references, Node.referencesOfAll_eq, List.mem_flatMap]
  have hbullet : ∀ d : BulletDef Node, m ∈ d.references ↔ ∃ n ∈ d.actions, m ∈ n.references := by
    rintro ⟨label, direction, speed, actions⟩
    rw [BulletDef.references, Node.referencesOfAll_eq, List.mem_flatMap]
  have hfire : ∀ f : Fire Node, m ∈ f.references ↔ m ∈ (Node.fire f).references := fun f => Iff.rfl
  simp only [Mentions, ← Node.mem_references, haction, hbullet, hfire, nodes, List.mem_append,
    List.mem_flatMap, List.mem_map]
  constructor
  · rintro ⟨n, (⟨a, ha, hn⟩ | ⟨f, hf, rfl⟩) | ⟨d, hd, hn⟩, hm⟩
    · exact .inl ⟨a, ha, n, hn, hm⟩
    · exact .inr (.inl ⟨f, hf, hm⟩)
    · exact .inr (.inr ⟨d, hd, n, hn, hm⟩)
  · rintro (⟨a, ha, n, hn, hm⟩ | ⟨f, hf, hm⟩ | ⟨d, hd, n, hn, hm⟩)
    · exact ⟨n, .inl (.inl ⟨a, ha, hn⟩), hm⟩
    · exact ⟨_, .inl (.inr ⟨f, hf, rfl⟩), hm⟩
    · exact ⟨n, .inr ⟨d, hd, hn⟩, hm⟩

end Draft

/-! ## The tables of a document -/

namespace Document

/-- A document has the same definitions as another one, in some order. -/
structure Reorders (doc doc' : Document) : Prop where
  actions : doc'.actions.Perm doc.actions
  fires : doc'.fires.Perm doc.fires
  bullets : doc'.bullets.Perm doc.bullets

/-- The tables of a document have the definitions of a draft. -/
structure Lists (draft : Draft) (doc : Document) : Prop where
  labels : draft.WellLabelled
  actions : Table.Lists Action.label draft.actions doc.actions
  fires : Table.Lists Fire.label draft.fires doc.fires
  bullets : Table.Lists BulletDef.label draft.bullets doc.bullets

variable {draft : Draft} {doc doc' : Document}

theorem Lists.reorders (h : doc.Lists draft) (hr : doc.Reorders doc') : doc'.Lists draft :=
  ⟨h.labels, fun label x => hr.actions.mem_iff.trans (h.actions label x),
    fun label x => hr.fires.mem_iff.trans (h.fires label x),
    fun label x => hr.bullets.mem_iff.trans (h.bullets label x)⟩

theorem Lists.mem_references (h : doc.Lists draft) {m : Mention} :
    m ∈ doc.references ↔ draft.Mentions m := by
  rw [Draft.mentions_iff, references, List.mem_append, List.mem_append, List.mem_flatMap,
    List.mem_flatMap, List.mem_flatMap, or_assoc]
  rw [h.actions.exists_iff h.labels.actions (P := fun a => m ∈ a.references),
    h.fires.exists_iff h.labels.fires (P := fun f => m ∈ f.references),
    h.bullets.exists_iff h.labels.bullets (P := fun d => m ∈ d.references)]

theorem Lists.defines_iff (h : doc.Lists draft) {m : Mention} :
    doc.defines m = true ↔ draft.Defines m := by
  obtain ⟨kind, label⟩ := m
  cases kind with
  | action => exact h.actions.lookup_isSome
  | fire => exact h.fires.lookup_isSome
  | bullet => exact h.bullets.lookup_isSome

/-- A document is accepted exactly if what its draft mentions is defined there. -/
theorem Lists.validate_iff (h : doc.Lists draft) : doc.validate = .ok () ↔ draft.Complete := by
  rw [Document.validate_iff, Closed, Covers, Draft.Complete]
  simp only [h.mem_references, h.defines_iff]

/-- A document is rejected for a label that its draft mentions and does not define. -/
theorem Lists.dangles (h : doc.Lists draft) {e : DocumentError} (he : doc.validate = .error e) :
    draft.Dangles e := by
  unfold validate at he
  cases hfind : doc.references.find? fun mention => !doc.defines mention with
  | none =>
    rw [hfind] at he
    cases he
  | some mention =>
    rw [hfind] at he
    obtain ⟨kind, label⟩ := mention
    cases he
    have hmissing := List.find?_some hfind
    refine ⟨kind, label, rfl, h.mem_references.1 (List.mem_of_find?_eq_some hfind), fun hdefined => ?_⟩
    simp [h.defines_iff.2 hdefined] at hmissing

end Document

namespace Draft

variable {draft : Draft}

/-- The tables of a draft are made, or the first fault of a label is the error. -/
theorem index_meets (draft : Draft) :
    Except.Meets (fun doc => doc.Lists draft) draft.LabelFault draft.index := by
  rw [index]
  cases hactions : Table.addAll .action Action.label [] draft.actions with
  | error e => exact .action (Table.addAll_error_iff.1 hactions)
  | ok actions =>
    have hwell := (Table.addAll_ok_iff _).1 ⟨actions, hactions⟩
    cases hfires : Table.addAll .fire Fire.label [] draft.fires with
    | error e => exact .fire hwell (Table.addAll_error_iff.1 hfires)
    | ok fires =>
      have hwell' := (Table.addAll_ok_iff _).1 ⟨fires, hfires⟩
      cases hbullets : Table.addAll .bullet BulletDef.label [] draft.bullets with
      | error e => exact .bullet hwell hwell' (Table.addAll_error_iff.1 hbullets)
      | ok bullets =>
        exact ⟨⟨hwell, hwell', (Table.addAll_ok_iff _).1 ⟨bullets, hbullets⟩⟩,
          Table.lists_of_addAll hactions, Table.lists_of_addAll hfires, Table.lists_of_addAll hbullets⟩

theorem index_ok_iff : (∃ doc, draft.index = .ok doc) ↔ draft.WellLabelled := by
  constructor
  · rintro ⟨doc, h⟩
    exact (draft.index_meets.ok h).labels
  · intro h
    obtain ⟨actions, hactions⟩ := (Table.addAll_ok_iff .action).2 h.actions
    obtain ⟨fires, hfires⟩ := (Table.addAll_ok_iff .fire).2 h.fires
    obtain ⟨bullets, hbullets⟩ := (Table.addAll_ok_iff .bullet).2 h.bullets
    exact ⟨⟨actions, fires, bullets⟩, by rw [index, hactions, hfires, hbullets]; rfl⟩

theorem index_error_iff {e : DocumentError} : draft.index = .error e ↔ draft.LabelFault e := by
  constructor
  · exact draft.index_meets.error
  · intro h
    rw [index]
    cases h with
    | action h => rw [Table.addAll_error_iff.2 h]; rfl
    | fire hactions h =>
      obtain ⟨actions, hactions⟩ := (Table.addAll_ok_iff .action).2 hactions
      rw [hactions, Table.addAll_error_iff.2 h]
      rfl
    | bullet hactions hfires h =>
      obtain ⟨actions, hactions⟩ := (Table.addAll_ok_iff .action).2 hactions
      obtain ⟨fires, hfires⟩ := (Table.addAll_ok_iff .fire).2 hfires
      rw [hactions, hfires, Table.addAll_error_iff.2 h]
      rfl

theorem build_ok_iff {doc : Document} :
    draft.build = .ok doc ↔ draft.index = .ok doc ∧ draft.Complete := by
  constructor
  · intro h
    obtain ⟨doc', hindex, h⟩ := Except.bind_ok h
    obtain ⟨⟨⟩, hv, h⟩ := Except.bind_ok h
    cases h
    exact ⟨hindex, (draft.index_meets.ok hindex).validate_iff.1 hv⟩
  · rintro ⟨hindex, hcomplete⟩
    rw [build, hindex]
    have hv := (draft.index_meets.ok hindex).validate_iff.2 hcomplete
    simp [bind, Except.bind, hv, pure, Except.pure]

/-- A draft is rejected for the first fault of a label or, if there is none, for a label that it mentions
and does not define. -/
theorem build_error {e : DocumentError} (h : draft.build = .error e) :
    draft.LabelFault e ∨ draft.WellLabelled ∧ draft.Dangles e := by
  rw [build] at h
  cases hindex : draft.index with
  | error e' =>
    rw [hindex] at h
    cases h
    exact .inl (index_error_iff.1 hindex)
  | ok doc =>
    have hlists := draft.index_meets.ok hindex
    rw [hindex] at h
    cases hv : doc.validate with
    | ok _ => simp [bind, Except.bind, hv, pure, Except.pure] at h
    | error e' =>
      simp only [bind, Except.bind, hv, Except.error.injEq] at h
      exact .inr ⟨hlists.labels, h ▸ hlists.dangles hv⟩

end Draft

/-! ## The whole construction -/

/-- The tables of a draft are made exactly if every definition has a label and no two of one kind have the
same; otherwise the first fault is the error. In whatever order they hold their definitions, looking a label
up gives the definition of this kind that has it, or says that there is none; the check accepts them exactly
if everything that is mentioned is defined, and otherwise names something that is mentioned and is not.

So a document is built exactly of a draft with its labels in order that defines all that it mentions. -/
theorem document_built_iff (draft : Draft) :
    ((∃ doc, draft.index = .ok doc) ↔ draft.WellLabelled) ∧
    (∀ e, draft.index = .error e ↔ draft.LabelFault e) ∧
    (∀ doc doc', draft.index = .ok doc → doc.Reorders doc' →
      (Answers .action Action.label draft.actions doc'.resolveAction ∧
        Answers .fire Fire.label draft.fires doc'.resolveFire ∧
        Answers .bullet BulletDef.label draft.bullets doc'.resolveBullet) ∧
      (doc'.validate = .ok () ↔ draft.Complete) ∧
      ∀ e, doc'.validate = .error e → draft.Dangles e) ∧
    (∀ doc, draft.build = .ok doc ↔ draft.index = .ok doc ∧ draft.Complete) ∧
    ((∃ doc, draft.build = .ok doc) ↔ draft.WellLabelled ∧ draft.Complete) ∧
    (∀ e, draft.LabelFault e → draft.build = .error e) ∧
    ∀ e, draft.build = .error e → draft.LabelFault e ∨ draft.WellLabelled ∧ draft.Dangles e := by
  refine ⟨Draft.index_ok_iff, fun e => Draft.index_error_iff, fun doc doc' hdoc hreorders => ?tables,
    fun doc => Draft.build_ok_iff, ?accepted, fun e he => ?fault, fun e => Draft.build_error⟩
  case tables =>
    have hlists := (draft.index_meets.ok hdoc).reorders hreorders
    exact ⟨⟨hlists.actions.answers hlists.labels.actions, hlists.fires.answers hlists.labels.fires,
      hlists.bullets.answers hlists.labels.bullets⟩, hlists.validate_iff, fun e => hlists.dangles⟩
  case accepted =>
    rw [← Draft.index_ok_iff]
    constructor
    · rintro ⟨doc, hdoc⟩
      obtain ⟨hindex, hcomplete⟩ := Draft.build_ok_iff.1 hdoc
      exact ⟨⟨doc, hindex⟩, hcomplete⟩
    · rintro ⟨⟨doc, hindex⟩, hcomplete⟩
      exact ⟨doc, Draft.build_ok_iff.2 ⟨hindex, hcomplete⟩⟩
  case fault =>
    rw [Draft.build, Draft.index_error_iff.2 he]
    rfl

/-- The bullet of a fire in a nested action repeats what only a fire is called. -/
def misnamed : Draft :=
  ⟨[⟨some "top", [.action ⟨none, [.fire ⟨none, none, none,
      .inline ⟨none, none, none, [.loop (.number 2) (.reference ⟨"spin", []⟩)]⟩⟩]⟩]⟩],
    [⟨some "spin", none, none, .inline default⟩], []⟩

/-- The labels of this draft are in order. It is rejected because no action has the label. -/
theorem document_built_iff_misnamed :
    misnamed.build = .error (.notFound .action "spin") ∧
      misnamed.WellLabelled ∧ misnamed.Mentions (.action, "spin") ∧
      ¬misnamed.Defines (.action, "spin") ∧ misnamed.Defines (.fire, "spin") := by
  have hbuild : misnamed.build = .error (.notFound .action "spin") := rfl
  obtain ⟨hindex, -, -, -, -, -, herror⟩ := document_built_iff misnamed
  have hlabels : misnamed.WellLabelled := hindex.1 ⟨_, rfl⟩
  rcases herror _ hbuild with hfault | ⟨-, kind, label, heq, hmentions, hdefines⟩
  · cases hfault with
    | action h => cases h
    | fire _ h => cases h
    | bullet _ _ h => cases h
  · cases heq
    exact ⟨hbuild, hlabels, hmentions, hdefines, _, List.mem_singleton_self _, rfl⟩

end Barrage
