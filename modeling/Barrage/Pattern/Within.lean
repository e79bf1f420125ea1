import Barrage.Pattern.Node

/-!
# Nodes in nodes

* `Node.parts`: the nodes directly in a node.
* `Node.induction`: a property of nodes is shown of a node from the nodes directly in it.
* `Node.Within`: a node is in another one, however deep: in nested actions, in the bodies of loops and in
  the bullet definitions that fires hold.
* `Node.Names`: the label that a node itself needs. `Node.referencesOfAll_eq`: what several nodes need is what
  each of them needs.
* `Node.mem_references`: the labels that a node needs are those that the nodes in it name.
-/

namespace Barrage

/-- The nodes directly in the body of a loop. -/
def LoopBody.parts : LoopBody Node → List Node
  | .action a => a.children
  | .reference _ => []

/-- The nodes directly in the source of a bullet. -/
def BulletSource.parts : BulletSource Node → List Node
  | .inline d => d.actions
  | .reference _ => []

/-- The nodes directly in a node. -/
def Node.parts : Node → List Node
  | .action a => a.children
  | .loop _ body => body.parts
  | .fire f => f.bullet.parts
  | .actionRef _ | .fireRef _ | .changeDirection _ _ | .changeSpeed _ _ | .accel _ _ _ | .wait _
  | .vanish => []

/-- Induction over nodes, from the nodes directly in one. -/
@[elab_as_elim]
theorem Node.induction {motive : Node → Prop}
    (node : ∀ n : Node, (∀ c ∈ n.parts, motive c) → motive n) (n : Node) : motive n := by
  refine @Node.rec motive (fun a => ∀ c ∈ a.children, motive c) (fun b => ∀ c ∈ b.parts, motive c)
    (fun f => ∀ c ∈ f.bullet.parts, motive c) (fun l => ∀ c ∈ l, motive c)
    (fun s => ∀ c ∈ s.parts, motive c) (fun d => ∀ c ∈ d.actions, motive c)
    (fun a h => node (.action a) h) ?actionRef (fun times b h => node (.loop times b) h)
    (fun f h => node (.fire f) h) ?fireRef ?changeDirection ?changeSpeed ?accel ?wait ?vanish
    (fun _ _ h => h) (fun _ h => h) ?reference (fun _ _ _ _ h => h) ?nil ?cons (fun _ h => h) ?reference
    (fun _ _ _ _ h => h) n
  case cons =>
    intro n rest hn hrest c h
    rcases List.mem_cons.1 h with rfl | h
    · exact hn
    · exact hrest c h
  all_goals intros
  case actionRef | fireRef | changeDirection | changeSpeed | accel | wait | vanish =>
    refine node _ fun c h => ?_
    cases h
  all_goals contradiction

/-- A node is in another one: it is that one, or in a node directly in it. -/
inductive Node.Within : Node → Node → Prop
  | self (n : Node) : Within n n
  | part {n p c : Node} (hp : p ∈ n.parts) (h : Within p c) : Within n c

/-- A node itself needs a definition: the action of a reference or of the body of a loop, the fire of a
reference, the bullet definition of a fire. -/
inductive Node.Names : Node → Mention → Prop
  | actionRef (r : Reference) : Names (.actionRef r) (.action, r.label)
  | loop (times : Formula) (r : Reference) : Names (.loop times (.reference r)) (.action, r.label)
  | fireRef (r : Reference) : Names (.fireRef r) (.fire, r.label)
  | fire (label : Option String) (direction : Option DirectionSpec) (speed : Option SpeedSpec)
    (r : Reference) : Names (.fire ⟨label, direction, speed, .reference r⟩) (.bullet, r.label)

namespace Node

variable {n : Node} {m : Mention}

theorem referencesOfAll_eq (l : List Node) : referencesOfAll l = l.flatMap references := by
  induction l with
  | nil => rfl
  | cons n rest ih => rw [referencesOfAll, ih, List.flatMap_cons]

/-- A node that names a label needs nothing else. -/
theorem Names.references_eq (h : n.Names m) : n.references = [m] ∧ n.parts = [] := by
  cases h <;> exact ⟨rfl, rfl⟩

/-- A node that names no label needs what the nodes directly in it need. -/
theorem references_eq_parts (h : ∀ m, ¬n.Names m) : n.references = referencesOfAll n.parts := by
  cases n with
  | action a =>
    cases a
    rfl
  | loop times body =>
    cases body with
    | action a =>
      cases a
      rfl
    | reference r => exact absurd (.loop times r) (h _)
  | fire f =>
    obtain ⟨label, direction, speed, bullet⟩ := f
    cases bullet with
    | inline d =>
      cases d
      rfl
    | reference r => exact absurd (.fire label direction speed r) (h _)
  | actionRef r => exact absurd (.actionRef r) (h _)
  | fireRef r => exact absurd (.fireRef r) (h _)
  | changeDirection _ _ | changeSpeed _ _ | accel _ _ _ | wait _ | vanish => rfl

/-- What a node needs it names itself, or a node directly in it needs it. -/
theorem mem_references_iff : m ∈ n.references ↔ n.Names m ∨ ∃ c ∈ n.parts, m ∈ c.references := by
  by_cases hn : ∃ m', n.Names m'
  · obtain ⟨m', hn⟩ := hn
    obtain ⟨hreferences, hparts⟩ := hn.references_eq
    rw [hreferences, hparts, List.mem_singleton]
    constructor
    · intro h
      exact .inl (h ▸ hn)
    · rintro (h | ⟨c, hc, -⟩)
      · have hsame : [m'] = [m] := hreferences.symm.trans h.references_eq.1
        exact (List.singleton_inj.1 hsame).symm
      · cases hc
  · have hnone : ∀ m, ¬n.Names m := fun m h => hn ⟨m, h⟩
    rw [references_eq_parts hnone, referencesOfAll_eq, List.mem_flatMap]
    simp [hnone]

/-- The labels that a node needs are those that the nodes in it name. -/
theorem mem_references : m ∈ n.references ↔ ∃ c, n.Within c ∧ c.Names m := by
  constructor
  · intro h
    induction n using Node.induction with
    | node n ih =>
      rcases mem_references_iff.1 h with h | ⟨p, hp, h⟩
      · exact ⟨n, .self n, h⟩
      · obtain ⟨c, hc, h⟩ := ih p hp h
        exact ⟨c, .part hp hc, h⟩
  · rintro ⟨c, hc, h⟩
    induction hc with
    | self n => exact mem_references_iff.2 (.inl h)
    | part hp _ ih => exact mem_references_iff.2 (.inr ⟨_, hp, ih h⟩)

end Node

end Barrage
