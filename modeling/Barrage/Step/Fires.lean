import Barrage.Document.Closed
import Barrage.Step.BuildLemmas
import Barrage.Step.Part

/-!
# The fires of a step

* `Step.Fires`: all bullet definitions that the fires in a step hold have a property.
  `Step.fires_sequence`, `Step.fires_loop` and `Step.fires_fire` open it.
* `Step.fires_blank`, `Sequence.fires_congr`: what a step has done does not matter.
* `Document.Equips`: a document defines all labels that a bullet definition needs.
* `Builder.action_meets`, `Builder.bullet_meets`: under a closed document what needs only labels that are
  defined is built, with fires whose definitions it equips; or it has an operation that is not supported,
  or nests too deep.
-/

namespace Barrage

variable {Q : BulletDef Node → Prop}

/-- A step is no fire whose definition lacks a property. -/
def Step.Casts (Q : BulletDef Node → Prop) : Step → Prop
  | .fire f => Q f.definition
  | .sequence _ | .loop _ | .mutation _ | .wait _ | .vanish _ => True

/-- All definitions of the fires in a step have a property. -/
def Step.Fires (Q : BulletDef Node → Prop) (s : Step) : Prop := s.Everywhere (Casts Q)

namespace Step

theorem fires_sequence {s : Sequence Step} :
    (sequence s).Fires Q ↔ ∀ c ∈ s.children, c.Fires Q :=
  everywhere_sequence.trans (and_iff_right trivial)

theorem fires_loop {l : LoopStep Step} : (loop l).Fires Q ↔ (sequence l.body).Fires Q :=
  everywhere_loop.trans (and_iff_right trivial)

theorem fires_fire {f : FireStep} : (fire f).Fires Q ↔ Q f.definition := everywhere_leaf rfl

theorem fires_mutation (m : MutationStep) : (mutation m).Fires Q := (everywhere_leaf rfl).2 trivial

theorem fires_wait (w : WaitStep) : (wait w).Fires Q := (everywhere_leaf rfl).2 trivial

theorem fires_vanish (triggered : Bool) : (vanish triggered).Fires Q :=
  (everywhere_leaf rfl).2 trivial

/-- What a step has done does not matter to the fires in it. -/
theorem fires_blank (s : Step) : s.blank.Fires Q ↔ s.Fires Q := by
  induction s using Step.induction with
  | sequence s ih =>
    rw [blank_sequence, fires_sequence, fires_sequence, Sequence.blank_eq]
    simp only [List.forall_mem_map]
    exact forall₂_congr ih
  | loop l ih =>
    rw [blank_loop, fires_loop, fires_loop]
    exact ih
  | fire f =>
    show (fire _).Fires Q ↔ _
    rw [fires_fire, fires_fire]
    rfl
  | mutation m => exact iff_of_true (fires_mutation _) (fires_mutation m)
  | wait w => exact iff_of_true (fires_wait _) (fires_wait w)
  | vanish _ => exact iff_of_true (fires_vanish _) (fires_vanish _)

end Step

theorem Sequence.fires_congr {s s' : Sequence Step} (h : s'.blank = s.blank) :
    (Step.sequence s').Fires Q ↔ (Step.sequence s).Fires Q := by
  rw [← Step.fires_blank, Step.blank_sequence, h, ← Step.blank_sequence, Step.fires_blank]

/-! ## Building -/

/-- A document defines all labels that a bullet definition needs. -/
def Document.Equips (doc : Document) (d : BulletDef Node) : Prop := doc.Covers d.references

namespace Builder

variable {b : Builder} {enter : Action Node → Scope → Except StepError (Sequence Step)}
  (hb : b.document.Closed)

/-- What comes of building a sequence: its fires have definitions that the document equips, or it needs
an operation that is not supported or nests too deep. -/
def Builds (b : Builder) (r : Except StepError (Sequence Step)) : Prop :=
  Except.Meets (fun s => (Step.sequence s).Fires b.document.Equips) (fun x => x.isLimit = true) r

include hb

theorem fireStep_meets {fire : Fire Node} (h : b.document.Covers fire.references) (scope : Scope) :
    Except.Meets (fun f => b.document.Equips f.definition) (fun x => x.isLimit = true)
      (b.fireStep fire scope) := by
  obtain ⟨label, direction, speed, bullet⟩ := fire
  cases bullet with
  | inline definition => exact h
  | reference r =>
    obtain ⟨d, hd, hcovers⟩ := hb.bullet (h (.bullet, r.label) List.mem_cons_self)
    rw [fireStep]
    simp only [hd]
    exact hcovers

theorem follow_meets
    (he : ∀ a scope, b.document.Covers a.references → b.Builds (enter a scope)) {r : Reference}
    (h : b.document.defines (.action, r.label) = true) : b.Builds (b.follow enter r) := by
  obtain ⟨a, ha, hcovers⟩ := hb.action h
  rw [follow, ha]
  exact he a _ hcovers

theorem stepBy_meets
    (he : ∀ a scope, b.document.Covers a.references → b.Builds (enter a scope)) {n : Node}
    (h : b.document.Covers n.references) :
    Except.Meets (·.Fires b.document.Equips) (fun x => x.isLimit = true) (b.stepBy enter n) := by
  unfold stepBy
  split
  · exact (he _ _ h).map fun s hs => hs
  · next r => exact (follow_meets hb he (h (.action, r.label) List.mem_cons_self)).map fun s hs => hs
  · exact (he _ _ h).map fun s hs => Step.fires_loop.2 hs
  · next times r =>
    exact (follow_meets hb he (h (.action, r.label) List.mem_cons_self)).map fun s hs =>
      Step.fires_loop.2 hs
  · exact (fireStep_meets hb h _).map fun f hf => Step.fires_fire.2 hf
  · next r =>
    obtain ⟨f, hf, hcovers⟩ := hb.fire (h (.fire, r.label) List.mem_cons_self)
    simp only [hf]
    exact (fireStep_meets hb hcovers _).map fun f hf => Step.fires_fire.2 hf
  · exact Step.fires_mutation _
  · exact Step.fires_mutation _
  · rfl
  · exact Step.fires_wait _
  · exact Step.fires_vanish _

/-- The steps of nodes make up a sequence. -/
theorem builds_mapM
    (he : ∀ a scope, b.document.Covers a.references → b.Builds (enter a scope)) {ns : List Node}
    (h : ∀ n ∈ ns, b.document.Covers n.references) (label : Option String) (scope : Scope) :
    b.Builds (do
      let children ← ns.mapM (b.stepBy enter)
      .ok ⟨label, scope, children, 0⟩) := by
  have hchildren := Except.Meets.mapM fun n hn => stepBy_meets hb he (h n hn)
  cases hc : ns.mapM (b.stepBy enter) with
  | error x => exact hchildren.error hc
  | ok children => exact Step.fires_sequence.2 (hchildren.ok hc)

theorem enter_meets {a : Action Node} (h : b.document.Covers a.references) (levels depth : Nat)
    (scope : Scope) : b.Builds (b.enter levels depth a scope) := by
  induction levels generalizing depth a scope with
  | zero => rfl
  | succ levels ih =>
    rw [enter]
    exact builds_mapM hb (fun a scope ha => ih ha _ scope) (Document.covers_action.1 h) a.label scope

/-- An action that needs only labels that are defined is built, or has an operation that is not supported
or nests too deep. -/
theorem action_meets {a : Action Node} (h : b.document.Covers a.references) :
    b.Builds (b.action a) :=
  enter_meets hb h _ _ _

/-- The same for a bullet definition. -/
theorem bullet_meets {d : BulletDef Node} (h : b.document.Equips d) : b.Builds (b.bullet d) := by
  rw [bullet]
  exact builds_mapM hb (fun a scope ha => enter_meets hb ha _ _ scope)
    (Document.covers_bulletDef.1 h) d.label .shared

end Builder

end Barrage
