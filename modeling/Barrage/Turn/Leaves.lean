import Barrage.Turn.Contract
import Barrage.Turn.Journal

/-!
# The leaves of a turn

A turn of a tree gives turns to leaves of it, one after the other.

* `LeafTurn`: the turn of a leaf; `LeafTurn.Stops`: it stops the whole turn.
* `Step.Gives`: the turns of leaves in a turn of a step, with one constructor for each thing that a part can
  do.
* `Sequence.advance_gives`: every turn is made of turns of leaves.
* `Step.Gives.begins`: they are those that the journal tells of.
-/

namespace Barrage

/-- The turn of a leaf in surroundings with some parameters. -/
structure LeafTurn (φ ρ α : Type) where
  leaf : Step
  params : Params
  before : Turn φ ρ α
  outcome : Outcome Step (Turn φ ρ α)

variable {φ ρ α : Type}

/-- A vanish stops the whole turn, and so does a leaf that goes on next time. -/
def LeafTurn.Stops (l : LeafTurn φ ρ α) : Prop :=
  l.leaf.kind = .vanish ∨ l.outcome.error = none ∧ l.outcome.step.isDone = false

/-- The leaf that an event is the beginning of. -/
def Event.began? : Event → Option StepKind
  | began kind => some kind
  | _ => none

/-- Whether steps of a kind have no steps below them. -/
def StepKind.isLeaf : StepKind → Bool
  | sequence | loop => false
  | fire | mutation | wait | vanish => true

variable [RandomSource ρ] [BulletFactory φ α]

/-- The turns of leaves, in order, in a turn of a step with some parameters around it. -/
inductive Step.Gives (stage : Stage) :
    Params → Step → Turn φ ρ α → List (LeafTurn φ ρ α) → Outcome Step (Turn φ ρ α) → Prop where
  | leaf {params step t o} (hl : step.kind.isLeaf = true)
    (ho : step.dispatch (Sequence.advance stage) stage params t = o) :
    Gives stage params step t [⟨step, params, t, o⟩] o
  | done {params s t} (hd : s.isDone = true) :
    Gives stage params (.sequence s) t [] ⟨.sequence s, t, none⟩
  | scopeFails {params s t e t₁} (hr : t.resolve stage params s.scope = (.error e, t₁)) :
    Gives stage params (.sequence s) t [] ⟨.sequence s, t₁, some (.evaluation e)⟩
  | current {params s t scope isNew t₁ step ls o}
    (hr : t.resolve stage params s.scope = (.ok (scope, isNew), t₁))
    (hc : (s.withScope scope isNew).current? = some step)
    (h : Gives stage (scope.params params) step t₁ ls o) :
    Gives stage params (.sequence s) t ls (((s.withScope scope isNew).settle o).map .sequence)
  | countFails {params l t e t₁} (hl : l.target = none)
    (hr : t.eval stage params l.times = (.error e, t₁)) :
    Gives stage params (.loop l) t [] ⟨.loop l, t₁, some (.evaluation e)⟩
  | entered {params l t x t₁ ls o} (hl : l.target = none)
    (hr : t.eval stage params l.times = (.ok x, t₁))
    (h : Gives stage params (.loop { l with target := some x.count.toNat }) t₁ ls o) :
    Gives stage params (.loop l) t ls o
  | ended {params l t n} (hl : l.target = some n) (hn : n ≤ l.completed) :
    Gives stage params (.loop l) t [] ⟨.loop l, t, none⟩
  | exhausted {params l t n} (hl : l.target = some n) (hn : l.completed < n) (hb : t.budget = 0) :
    Gives stage params (.loop l) t [] ⟨.loop l, t.exhaust, none⟩
  | fails {params l t n ls e} {o : Outcome (Sequence Step) (Turn φ ρ α)} (hl : l.target = some n)
    (hn : l.completed < n) (h : Gives stage params (.sequence l.body) t.spend ls (o.map .sequence))
    (he : o.error = some e) :
    Gives stage params (.loop l) t ls ⟨.loop { l with body := o.step }, o.turn, some e⟩
  | yields {params l t n ls} {o : Outcome (Sequence Step) (Turn φ ρ α)} (hl : l.target = some n)
    (hn : l.completed < n) (h : Gives stage params (.sequence l.body) t.spend ls (o.map .sequence))
    (he : o.error = none) (hy : o.turn.mustYield = true) :
    Gives stage params (.loop l) t ls
      ⟨.loop ({ l with body := o.step } : LoopStep Step).settle, o.turn, none⟩
  | again {params l t n ls ls' o'} {o : Outcome (Sequence Step) (Turn φ ρ α)} (hl : l.target = some n)
    (hn : l.completed < n) (h : Gives stage params (.sequence l.body) t.spend ls (o.map .sequence))
    (he : o.error = none) (hy : o.turn.mustYield = false)
    (h' : Gives stage params (.loop ({ l with body := o.step } : LoopStep Step).settle) o.turn ls' o') :
    Gives stage params (.loop l) t (ls ++ ls') o'

/-- Turns are made of turns of leaves. -/
def Contract.gives (stage : Stage) : Contract φ ρ α where
  sequence params s t o := ∃ ls, (Step.sequence s).Gives stage params t ls (o.map .sequence)
  step params s t o := ∃ ls, s.Gives stage params t ls o
  rounds params l t o := ∃ ls, (Step.loop l).Gives stage params t ls (o.map .loop)

theorem Contract.gives_kept (stage : Stage) :
    (gives (φ := φ) (ρ := ρ) (α := α) stage).Kept stage where
  done hd := ⟨[], .done hd⟩
  scopeFails _ hr := ⟨[], .scopeFails hr⟩
  current _ hr hc ho := by
    obtain ⟨ls, h⟩ := ho
    exact ⟨ls, .current hr hc h⟩
  nested ho := ho
  fire _ _ _ := ⟨_, .leaf rfl rfl⟩
  mutation _ _ _ := ⟨_, .leaf rfl rfl⟩
  wait _ _ _ := ⟨_, .leaf rfl rfl⟩
  vanish _ _ _ := ⟨_, .leaf rfl rfl⟩
  countFails hl hr := ⟨[], .countFails hl hr⟩
  entered hl hr ho := by
    obtain ⟨ls, h⟩ := ho
    exact ⟨ls, .entered hl hr h⟩
  resumed _ ho := ho
  ended hl hn := ⟨[], .ended hl hn⟩
  exhausted hl hn hb := ⟨[], .exhausted hl hn hb⟩
  fails hl hn _ ho he := by
    obtain ⟨ls, h⟩ := ho
    exact ⟨ls, .fails hl hn h he⟩
  yields hl hn _ ho he hy := by
    obtain ⟨ls, h⟩ := ho
    exact ⟨ls, .yields hl hn h he hy⟩
  again hl hn _ ho he hy hr := by
    obtain ⟨ls, h⟩ := ho
    obtain ⟨ls', h'⟩ := hr
    exact ⟨ls ++ ls', .again hl hn h he hy h'⟩

/-- Every turn of a sequence is made of turns of leaves. -/
theorem Sequence.advance_gives (stage : Stage) (params : Params) (s : Sequence Step) (t : Turn φ ρ α) :
    ∃ ls, (Step.sequence s).Gives stage params t ls ((s.advance stage params t).map .sequence) :=
  (Contract.gives_kept stage).advance params s t

/-! ## What the journal tells of leaves -/

/-- The turn of a leaf fails, or the leaf ends it and goes on unless it is done. -/
theorem Step.leaf_cases {advance : Advance φ ρ α} {stage : Stage} {params : Params} {step : Step}
    {t : Turn φ ρ α} {o : Outcome Step (Turn φ ρ α)} (hl : step.kind.isLeaf = true)
    (ho : step.dispatch advance stage params t = o) :
    (step.kind ≠ .vanish ∧ (∃ e, o.error = some e) ∧ Turn.LeafFails step.kind t o.turn) ∨
    (o.error = none ∧ ∃ clock, Turn.LeafEnds step.kind (!o.step.isDone) clock t o.turn) := by
  subst ho
  cases step with
  | sequence _ | loop _ => cases hl
  | fire f =>
    rw [dispatch]
    rcases f.logs_dispatch stage params t with ⟨e, t', f', h, hf⟩ | ⟨f', t', hd, h, he⟩ <;> rw [h]
    · exact .inl ⟨(fun hk => by cases hk), ⟨_, rfl⟩, hf⟩
    · refine .inr ⟨rfl, none, ?_⟩
      show Turn.LeafEnds .fire (!f'.fired) none t t'
      rwa [hd]
  | mutation m =>
    rw [dispatch]
    rcases m.logs_dispatch stage params t with ⟨e, t', h, hf⟩ | ⟨g, m', t', -, h, he⟩ <;> rw [h]
    · exact .inl ⟨(fun hk => by cases hk), ⟨_, rfl⟩, hf⟩
    · exact .inr ⟨rfl, _, he⟩
  | wait w =>
    rw [dispatch]
    rcases w.logs_dispatch stage params t with ⟨e, t', h, hf⟩ | ⟨d, w', t', -, h, he⟩ <;> rw [h]
    · exact .inl ⟨(fun hk => by cases hk), ⟨_, rfl⟩, hf⟩
    · exact .inr ⟨rfl, _, he⟩
  | vanish _ => exact .inr ⟨rfl, none, Turn.logs_vanish t⟩

/-- The leaves that some events tell of. -/
def begun (es : List Event) : List StepKind := es.filterMap Event.began?

@[simp] theorem begun_append (es es' : List Event) : begun (es ++ es') = begun es ++ begun es' :=
  List.filterMap_append

theorem begun_of_isInner {es : List Event} (h : ∀ e ∈ es, e.isInner = true) : begun es = [] := by
  refine List.filterMap_eq_nil_iff.2 fun e he => ?_
  have := h e he
  cases e <;> first | rfl | cases this

namespace Turn

variable {t t' : Turn φ ρ α}

/-- Leaves of some kinds had their turns between two turns. -/
def Begins (t t' : Turn φ ρ α) (kinds : List StepKind) : Prop := ∃ es, t.Logs t' es ∧ begun es = kinds

omit [RandomSource ρ] [BulletFactory φ α] in
theorem Begins.trans {t'' : Turn φ ρ α} {kinds kinds' : List StepKind} (h : t.Begins t' kinds)
    (h' : t'.Begins t'' kinds') : t.Begins t'' (kinds ++ kinds') := by
  obtain ⟨es, hl, rfl⟩ := h
  obtain ⟨es', hl', rfl⟩ := h'
  exact ⟨es ++ es', hl.trans hl', begun_append es es'⟩

omit [RandomSource ρ] [BulletFactory φ α] in
theorem Draws.begins (h : t.Draws t') : t.Begins t' [] := by
  obtain ⟨es, hl, hin⟩ := h.logs
  exact ⟨es, hl, begun_of_isInner hin⟩

omit [RandomSource ρ] [BulletFactory φ α] in
theorem begins_spend (t : Turn φ ρ α) : t.Begins t.spend [] := ⟨_, logs_log _ .iterated, rfl⟩

omit [RandomSource ρ] [BulletFactory φ α] in
theorem LeafFails.begins {kind : StepKind} (h : LeafFails kind t t') : t.Begins t' [kind] := by
  obtain ⟨es, hl, hin⟩ := h.events
  exact ⟨_, hl, congrArg (kind :: ·) (begun_of_isInner hin)⟩

omit [RandomSource ρ] [BulletFactory φ α] in
theorem LeafEnds.begins {kind : StepKind} {running : Bool} {clock : Option Clock}
    (h : LeafEnds kind running clock t t') : t.Begins t' [kind] := by
  obtain ⟨es, hl, hin⟩ := h.events
  refine ⟨_, hl, ?_⟩
  rw [begun_append, show begun (.began kind :: es) = [kind] from congrArg (kind :: ·) (begun_of_isInner hin)]
  rfl

end Turn

/-- The leaves that have turns are those that the journal tells of. -/
theorem Step.Gives.begins {stage : Stage} {params : Params} {step : Step} {t : Turn φ ρ α}
    {ls : List (LeafTurn φ ρ α)} {o : Outcome Step (Turn φ ρ α)} (h : step.Gives stage params t ls o) :
    t.Begins o.turn (ls.map fun l => l.leaf.kind) := by
  induction h with
  | leaf hl ho =>
    rcases leaf_cases hl ho with ⟨-, -, h⟩ | ⟨-, clock, h⟩
    · exact h.begins
    · exact h.begins
  | done | ended => exact ⟨[], .refl _, rfl⟩
  | scopeFails hr => exact (Turn.Draws.of_resolve hr).begins
  | current hr _ _ ih =>
    have := (Turn.Draws.of_resolve hr).begins.trans ih
    rwa [← Sequence.turn_settle] at this
  | countFails _ hr => exact (Turn.Draws.of_eval hr).begins
  | entered _ hr _ ih => exact (Turn.Draws.of_eval hr).begins.trans ih
  | exhausted => exact ⟨_, Turn.logs_log _ .exhausted, rfl⟩
  | fails _ _ _ _ ih | yields _ _ _ _ _ ih => exact (Turn.begins_spend _).trans ih
  | again _ _ _ _ _ _ ih ih' =>
    rw [List.map_append]
    exact (Turn.begins_spend _).trans (ih.trans ih')

end Barrage
