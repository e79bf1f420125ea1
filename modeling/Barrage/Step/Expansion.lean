import Barrage.Except
import Barrage.Step.Build

/-!
# The expansion of a node

A node opens an action if it is one, refers to one or loops over one. Opened again and again, a node
expands to a tree, which is endless if an action refers back to itself. A place in it is a list of
indices, and has the node that is met there. What fired bullets do is not part of it.

* `Node.opens?`, `Node.at?`: the action that a node opens, and the nodes of its expansion.
* `Node.needs`: the labels that are looked up for a node. `Node.defect?`: one of them names nothing, or
  the node has no step.
* `Node.flaw?`: a defect, or an action that lies too deep.
* `Step.at?`: the steps in a step, by the same places. `NodeKind.step?`: the kind of a node's step.
-/

namespace Barrage

/-! ## Nodes -/

/-- The action that a node opens. -/
def Node.opens? (doc : Document) : Node → Option (Action Node)
  | .action a | .loop _ (.action a) => some a
  | .actionRef r | .loop _ (.reference r) => doc.actions.lookup r.label
  | .fire _ | .fireRef _ | .changeDirection _ _ | .changeSpeed _ _ | .accel _ _ _ | .wait _
  | .vanish => none

/-- The node at a place of the expansion of a node: at no index it is the node itself, and the first
index is that of a child of the action that it opens. -/
def Node.at? (doc : Document) : Node → List Nat → Option Node
  | n, [] => some n
  | n, i :: place => (n.opens? doc).bind fun a => a.children[i]?.bind fun n => n.at? doc place

/-- The labels that are looked up for a fire. -/
def Fire.needs (f : Fire Node) : List Mention :=
  match f.bullet with
  | .inline _ => []
  | .reference r => [(.bullet, r.label)]

/-- The labels that are looked up for a node, not for those of the action that it opens. -/
def Node.needs (doc : Document) : Node → List Mention
  | .actionRef r | .loop _ (.reference r) => [(.action, r.label)]
  | .fire f => f.needs
  | .fireRef r => (.fire, r.label) :: ((doc.fires.lookup r.label).map Fire.needs).getD []
  | .action _ | .loop _ (.action _) | .changeDirection _ _ | .changeSpeed _ _ | .accel _ _ _
  | .wait _ | .vanish => []

/-- What is wrong with a node itself: it has no step, or the first label that names nothing. -/
def Node.defect? (doc : Document) (n : Node) : Option StepError :=
  if n.kind = .accel then some (.unsupported .accel)
  else ((n.needs doc).find? fun m => !doc.defines m).map fun m => .document (.notFound m.1 m.2)

/-- What is wrong with a node that is met in `depth` actions, one in the other: a defect, or an action
that it opens beyond the depth that is allowed. -/
def Node.flaw? (b : Builder) (depth : Nat) (n : Node) : Option StepError :=
  match n.defect? b.document, n.opens? b.document with
  | some e, _ => some e
  | none, some a => if depth < b.maxDepth then none else some (.nestingTooDeep a.label (depth + 1))
  | none, none => none

/-- The kind of the step of a node. -/
def NodeKind.step? : NodeKind → Option StepKind
  | .action | .actionRef => some .sequence
  | .loop => some .loop
  | .fire | .fireRef => some .fire
  | .changeDirection | .changeSpeed => some .mutation
  | .wait => some .wait
  | .vanish => some .vanish
  | .accel => none

theorem Node.defect?_eq_none_iff {doc : Document} {n : Node} :
    n.defect? doc = none ↔ (∀ m ∈ n.needs doc, doc.defines m = true) ∧ n.kind ≠ .accel := by
  unfold Node.defect?
  split
  · next h => simp [h]
  · next h => simp [h]

theorem Node.flaw?_eq_none_iff {b : Builder} {depth : Nat} {n : Node} :
    n.flaw? b depth = none ↔ n.defect? b.document = none ∧
      ∀ a, n.opens? b.document = some a → depth < b.maxDepth := by
  unfold Node.flaw?
  cases n.defect? b.document with
  | some e => simp
  | none =>
    cases n.opens? b.document with
    | none => simp
    | some a => simp

/-- A defect is never that an action lies too deep. -/
theorem Node.defect?_ne_tooDeep {doc : Document} {n : Node} {label : Option String}
    {reached : Nat} : n.defect? doc ≠ some (.nestingTooDeep label reached) := by
  unfold Node.defect?
  split
  · simp
  · simp

/-- A node with a flaw has a defect, or opens an action that lies too deep. -/
theorem Node.flaw?_cases {b : Builder} {depth : Nat} {n : Node} {e : StepError}
    (h : n.flaw? b depth = some e) :
    n.defect? b.document = some e ∨ n.defect? b.document = none ∧ b.maxDepth ≤ depth ∧
      ∃ a, n.opens? b.document = some a ∧ e = .nestingTooDeep a.label (depth + 1) := by
  unfold Node.flaw? at h
  cases hd : n.defect? b.document with
  | some e' => exact .inl (by rwa [hd] at h)
  | none =>
    cases ha : n.opens? b.document with
    | none =>
      rw [hd, ha] at h
      cases h
    | some a =>
      by_cases hlt : depth < b.maxDepth
      · simp [hd, ha, hlt] at h
      · simp only [hd, ha, hlt, ite_false, Option.some.injEq] at h
        exact .inr ⟨rfl, Nat.le_of_not_lt hlt, a, rfl, h.symm⟩

/-- A node that has nodes in it opens an action. -/
theorem Node.opens?_of_at? {doc : Document} {n m : Node} {i : Nat} {place : List Nat}
    (h : n.at? doc (i :: place) = some m) : ∃ a, n.opens? doc = some a := by
  rw [Node.at?, Option.bind_eq_some_iff] at h
  exact ⟨h.choose, h.choose_spec.1⟩

/-- The end of a place lies in the expansion of the node at its beginning. -/
theorem Node.at?_append (doc : Document) (n : Node) (place place' : List Nat) :
    n.at? doc (place ++ place') = (n.at? doc place).bind fun m => m.at? doc place' := by
  induction place generalizing n with
  | nil => rfl
  | cons i place ih =>
    simp only [List.cons_append, Node.at?]
    cases n.opens? doc with
    | none => rfl
    | some a =>
      cases hc : a.children[i]? with
      | none => simp [hc]
      | some c => simp [hc, ih]

/-! ## Steps -/

/-- The steps that are directly in a step. -/
def Step.children : Step → List Step
  | .sequence s => s.children
  | .loop l => l.body.children
  | .fire _ | .mutation _ | .wait _ | .vanish _ => []

/-- The step at a place in a step. -/
def Step.at? : Step → List Nat → Option Step
  | s, [] => some s
  | s, i :: place => s.children[i]?.bind fun s => s.at? place

/-- A step has a step of the right kind at each place of a node's expansion, and at no other. -/
def Step.Shows (doc : Document) (n : Node) (s : Step) : Prop :=
  ∀ place, (s.at? place).map Step.kind = (n.at? doc place).bind fun m => m.kind.step?

/-- A step that has no steps in it shows a node that opens nothing, if it is of the right kind. -/
theorem Step.shows_of_leaf {doc : Document} {n : Node} {s : Step} (ha : n.opens? doc = none)
    (hk : some s.kind = n.kind.step?) (hc : s.children = []) : s.Shows doc n := by
  intro place
  cases place with
  | nil => exact hk
  | cons i place => simp [Step.at?, Node.at?, ha, hc]

/-- A step shows a node if it is of the right kind and its steps show the nodes of the action that the
node opens. -/
theorem Step.shows_of_children {doc : Document} {n : Node} {a : Action Node} {s : Step}
    (ha : n.opens? doc = some a) (hk : some s.kind = n.kind.step?)
    (hc : List.Forall₂ (Step.Shows doc) a.children s.children) : s.Shows doc n := by
  intro place
  cases place with
  | nil => exact hk
  | cons i place =>
    simp only [Step.at?, Node.at?, ha, Option.bind_some]
    rcases hn : a.children[i]? with _ | c
    · have hs : s.children[i]? = none := by
        rw [List.getElem?_eq_none_iff] at hn ⊢
        rwa [← hc.length_eq]
      rw [hs]
      rfl
    · obtain ⟨hi, rfl⟩ := List.getElem?_eq_some_iff.1 hn
      have hi' : i < s.children.length := hc.length_eq ▸ hi
      rw [List.getElem?_eq_getElem hi']
      exact hc.get hi hi' place

/-! ## Building one step -/

namespace Builder

variable (b : Builder)

/-- A fire has a step if the labels that are looked up for it name something. -/
theorem fireStep_cases (f : Fire Node) (scope : Scope) :
    (∃ m, f.needs.find? (fun m => !b.document.defines m) = some m ∧
      b.fireStep f scope = .error (.document (.notFound m.1 m.2))) ∨
    (f.needs.find? (fun m => !b.document.defines m) = none ∧
      ∃ step, b.fireStep f scope = .ok step) := by
  unfold fireStep Fire.needs
  cases hb : f.bullet with
  | inline definition => exact .inr ⟨rfl, _, rfl⟩
  | reference r =>
    cases hl : b.document.bullets.lookup r.label with
    | none => exact .inl ⟨(.bullet, r.label), by simp [Document.defines, hl],
        by simp [Document.resolveBullet, Table.resolve, hl]⟩
    | some d => exact .inr ⟨by simp [Document.defines, hl], _,
        by simp [Document.resolveBullet, Table.resolve, hl]; rfl⟩

/-- An action is entered through a reference if its label names one. -/
theorem follow_cases (enter : Action Node → Scope → Except StepError (Sequence Step))
    (r : Reference) :
    (b.document.actions.lookup r.label = none ∧
      b.follow enter r = .error (.document (.notFound .action r.label))) ∨
    ∃ a, b.document.actions.lookup r.label = some a ∧
      b.follow enter r = enter a (.ofArgs r.args) := by
  unfold follow Document.resolveAction Table.resolve
  cases b.document.actions.lookup r.label with
  | none => exact .inl ⟨rfl, rfl⟩
  | some a => exact .inr ⟨a, rfl, rfl⟩

/-- The step of a node, by what is wrong with the node and which action it opens. -/
theorem stepBy_cases (enter : Action Node → Scope → Except StepError (Sequence Step)) (n : Node) :
    (∃ e, n.defect? b.document = some e ∧ b.stepBy enter n = .error e) ∨
    (n.defect? b.document = none ∧ n.opens? b.document = none ∧
      ∃ step, b.stepBy enter n = .ok step ∧ some step.kind = n.kind.step? ∧ step.children = []) ∨
    (n.defect? b.document = none ∧ ∃ a scope wrap, n.opens? b.document = some a ∧
      b.stepBy enter n = wrap <$> enter a scope ∧
      ∀ s : Sequence Step, some (wrap s).kind = n.kind.step? ∧ (wrap s).children = s.children) := by
  cases n with
  | action a => exact .inr (.inr ⟨rfl, a, .shared, .sequence, rfl, rfl, fun s => ⟨rfl, rfl⟩⟩)
  | loop times body =>
    let wrap (s : Sequence Step) : Step := .loop ⟨times, none, 0, s⟩
    cases body with
    | action a => exact .inr (.inr ⟨rfl, a, .shared, wrap, rfl, rfl, fun s => ⟨rfl, rfl⟩⟩)
    | reference r =>
      rcases b.follow_cases enter r with ⟨hl, hf⟩ | ⟨a, hl, hf⟩
      · refine .inl ⟨.document (.notFound .action r.label), ?_, by rw [stepBy, hf]; rfl⟩
        simp [Node.defect?, Node.kind, Node.needs, Document.defines, hl]
      · refine .inr (.inr ⟨?_, a, .ofArgs r.args, wrap, hl, by rw [stepBy, hf],
          fun s => ⟨rfl, rfl⟩⟩)
        simp [Node.defect?, Node.kind, Node.needs, Document.defines, hl]
  | actionRef r =>
    rcases b.follow_cases enter r with ⟨hl, hf⟩ | ⟨a, hl, hf⟩
    · refine .inl ⟨.document (.notFound .action r.label), ?_, by rw [stepBy, hf]; rfl⟩
      simp [Node.defect?, Node.kind, Node.needs, Document.defines, hl]
    · refine .inr (.inr ⟨?_, a, .ofArgs r.args, .sequence, hl, by rw [stepBy, hf],
        fun s => ⟨rfl, rfl⟩⟩)
      simp [Node.defect?, Node.kind, Node.needs, Document.defines, hl]
  | fire f =>
    rcases b.fireStep_cases f .shared with ⟨m, hm, hf⟩ | ⟨hm, step, hf⟩
    · refine .inl ⟨.document (.notFound m.1 m.2), ?_, by rw [stepBy, hf]; rfl⟩
      simp [Node.defect?, Node.kind, Node.needs, hm]
    · refine .inr (.inl ⟨?_, rfl, .fire step, by rw [stepBy, hf]; rfl, rfl, rfl⟩)
      simp [Node.defect?, Node.kind, Node.needs, hm]
  | fireRef r =>
    -- Its label is looked up first, then that of its bullet, as `needs` lists them.
    cases hl : b.document.fires.lookup r.label with
    | none =>
      refine .inl ⟨.document (.notFound .fire r.label), ?_, ?_⟩
      · simp [Node.defect?, Node.kind, Node.needs, Document.defines, hl]
      · simp [stepBy, Document.resolveFire, Table.resolve, hl]
    | some f =>
      have hresolve : b.document.resolveFire r.label = .ok f := by
        simp [Document.resolveFire, Table.resolve, hl]
      have hneeds : (Node.fireRef r).needs b.document = (.fire, r.label) :: f.needs := by
        simp [Node.needs, hl]
      have hdefined : b.document.defines (.fire, r.label) = true := by
        simp [Document.defines, hl]
      rcases b.fireStep_cases f (.ofArgs r.args) with ⟨m, hm, hf⟩ | ⟨hm, step, hf⟩
      · refine .inl ⟨.document (.notFound m.1 m.2), ?_, by simp only [stepBy, hresolve, hf]; rfl⟩
        simp [Node.defect?, Node.kind, hneeds, hdefined, hm]
      · refine .inr (.inl ⟨?_, rfl, .fire step, by simp only [stepBy, hresolve, hf]; rfl, rfl, rfl⟩)
        simp [Node.defect?, Node.kind, hneeds, hdefined, hm]
  | accel _ _ _ => exact .inl ⟨_, rfl, rfl⟩
  | changeDirection _ _ | changeSpeed _ _ | wait _ | vanish =>
    exact .inr (.inl ⟨rfl, rfl, _, rfl, rfl, rfl⟩)

end Builder

end Barrage
