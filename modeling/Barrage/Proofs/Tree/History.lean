import Barrage.Runner.Reach
import Barrage.Turn.Acts

/-!
# Histories of trees

A tree of steps is built and then called, at any time of any turn: whatever the owner, the factory,
the random source, the iterations that are left and what was fired last.

* `Step.Built`: the trees that can be built.
* `Step.Call`: what may be done to a tree; `Step.Reach`: some calls lead from one tree to another.
* `Program.Reach.tree`, `Runner.Reach.tree`: the trees of programs and of runners have such histories.
* `Step.Reach.valid`, `Step.Reach.bounded`: what all histories keep.
-/

namespace Barrage

namespace Step

/-- The trees that can be built. -/
inductive Built : Step → Prop where
  | node {builder : Builder} {n : Node} {s : Step} (h : builder.node n = .ok s) : Built s
  | action {builder : Builder} {a : Action Node} {s : Sequence Step}
    (h : builder.action a = .ok s) : Built (.sequence s)
  | bullet {builder : Builder} {d : BulletDef Node} {s : Sequence Step}
    (h : builder.bullet d = .ok s) : Built (.sequence s)

/-- A tree that was built is as it is before it is first entered. -/
theorem Built.blank {s : Step} (h : s.Built) : s.blank = s := by
  cases h with
  | node h => exact Builder.blank_node h
  | action h => exact congrArg Step.sequence (Builder.blank_action h)
  | bullet h => exact congrArg Step.sequence (Builder.blank_bullet h)

/-- What may be done to a tree. -/
inductive Call (φ ρ α : Type) where
  | execute (stage : Stage) (params : Params) (turn : Turn φ ρ α)
  /-- The parameters around the tree have changed. -/
  | update
  | reset
  | finish
  /-- Naming the owner of a tree changes nothing in it. -/
  | bind (owner : BulletId)

section Calls

variable {φ ρ α : Type} [RandomSource ρ] [BulletFactory φ α]

/-- The tree after a call. Only a sequence can have a turn. -/
def Call.run (s : Step) : Call φ ρ α → Step
  | execute stage params t =>
    match s with
    | sequence q => sequence (q.advance stage params t).step
    | s => s
  | update => s.expire
  | reset => s.reset
  | finish => s.finish
  | bind _ => s

end Calls

/-- Some calls lead from one tree to another. The hosts of the calls may be of different types. -/
inductive Reach (s : Step) : Step → Prop where
  | refl : Reach s s
  | call {φ ρ α : Type} [RandomSource ρ] [BulletFactory φ α] {s' : Step} (c : Call φ ρ α) :
    Reach s s' → Reach s (c.run s')

variable {s₀ s : Step}

/-- A tree that can be reached is valid. -/
theorem Reach.valid (h : s₀.Reach s) (h₀ : s₀.Built) : s.Valid := by
  induction h with
  | refl =>
    rw [← h₀.blank]
    exact (Pristine.forget (pristine_reset s₀)).valid
  | @call _ _ _ _ _ s' c _ ih =>
    cases c with
    | execute stage params t =>
      cases s' with
      | sequence q => exact Sequence.advance_valid stage params ih t
      | loop _ | fire _ | mutation _ | wait _ | vanish _ => exact ih
    | update => exact ih.expire
    | reset => exact (pristine_reset s').valid
    | finish => exact ih.finish
    | bind _ => exact ih

/-- No loop in a tree that can be reached runs more often than the largest count. -/
theorem Reach.bounded (h : s₀.Reach s) (h₀ : s₀.Built) : s.Everywhere Bounded := by
  induction h with
  | refl => exact everywhere_of_blank local_bounded h₀.blank
  | @call _ _ _ _ _ s' c hs' ih =>
    cases c with
    | execute stage params t =>
      cases s' with
      | sequence q =>
        obtain ⟨es, -, hacts⟩ := Sequence.advance_acts stage params (hs'.valid h₀) t
        exact hacts.everywhere local_bounded ih
      | loop _ | fire _ | mutation _ | wait _ | vanish _ => exact ih
    | update => exact ih.expire local_bounded
    | reset => exact everywhere_reset local_bounded s'
    | finish => exact ih.finish local_bounded (fun _ => trivial) fun _ => trivial
    | bind _ => exact ih

end Step

/-! ## The trees of programs and of runners -/

/-- The tree of a program that was built. -/
theorem Program.Origin.built {b : Builder} {o : Program.Origin} {params : Params} {p : Program}
    (h : o.build b params = .ok p) : p.step.Built := by
  cases o with
  | node n =>
    obtain ⟨step, hs, rfl⟩ := Except.map_ok h
    exact .node hs
  | action a =>
    obtain ⟨s, hs, rfl⟩ := Except.map_ok h
    exact .action hs
  | bullet d =>
    obtain ⟨s, hs, rfl⟩ := Except.map_ok h
    exact .bullet hs

/-- The tree of a program after some calls. -/
theorem Program.Reach.tree {p p' : Program} (h : p.Reach p') : p.step.Reach p'.step := by
  induction h with
  | refl => exact .refl
  | @call φ ρ α _ _ p' c _ ih =>
    cases c with
    | execute frame owner factory source last budget =>
      show p.step.Reach (p'.execute frame owner factory source last budget).program.step
      unfold Program.execute
      split
      · next s hs =>
        split
        · exact ih
        · rw [hs] at ih
          exact .call (.execute ⟨p'.builder, frame⟩ p'.params
            (Turn.start owner factory source budget last)) ih
      · exact ih
    | update _ => exact .call (.update : Step.Call φ ρ α) ih
    | reset => exact .call (.reset : Step.Call φ ρ α) ih
    | finish => exact .call (.finish : Step.Call φ ρ α) ih
    | bind owner => exact .call (.bind owner : Step.Call φ ρ α) ih

/-- The tree of a runner that was built. -/
theorem Runner.New.built {r : Runner} (h : New r) : (Step.sequence r.root).Built := by
  have haction {b : Builder} {a : Action Node} {params : Params} {r : Runner}
      (h : ofAction b a params = .ok r) : (Step.sequence r.root).Built := by
    obtain ⟨s, hs, rfl⟩ := Except.map_ok h
    exact .action hs
  cases h with
  | label h =>
    rw [ofLabel] at h
    split at h
    · exact haction h
    · cases h
  | action h => exact haction h
  | bullet h =>
    obtain ⟨s, hs, rfl⟩ := Except.map_ok h
    exact .bullet hs

/-- The tree of a runner after some calls. -/
theorem Runner.Reach.tree {r r' : Runner} (h : r.Reach r') :
    (Step.sequence r.root).Reach (.sequence r'.root) := by
  induction h with
  | refl => exact .refl
  | @call φ ρ α _ _ r' c _ ih =>
    cases c with
    | tick frame owner factory source =>
      have hturn : (Step.sequence r.root).Reach (.sequence _) :=
        .call (.execute ⟨r'.builder, frame⟩ r'.params (r'.turn owner factory source)) ih
      show (Step.sequence r.root).Reach (.sequence (r'.tick frame owner factory source).runner.root)
      rcases r'.tick_cases frame owner factory source with ⟨-, h⟩ | ⟨-, -, h⟩ | ⟨-, -, h⟩ <;> rw [h]
      · exact ih
      · exact ih
      · rcases root_afterTurn (r'.bindTo owner.id) (r'.root.advance ⟨r'.builder, frame⟩ r'.params
          (r'.turn owner factory source)) with hroot | hroot
        · exact hroot ▸ hturn
        · exact hroot ▸ .call (.finish : Step.Call φ ρ α) hturn
    | bind _ => exact ih
    | restart =>
      rw [Call.run, root_restart]
      exact .call (.reset : Step.Call φ ρ α) ih
    | cancel =>
      show (Step.sequence r.root).Reach (.sequence r'.cancel.root)
      unfold cancel
      split
      · exact .call (.finish : Step.Call φ ρ α) ih
      · exact ih

end Barrage
