import Barrage.Runner.Reach
import Barrage.Swarm.Recorded
import Barrage.Turn.Faults

/-!
# Families of runners

* `Runner.Descends`: a runner, whatever is done to it, and the runners of the bullets that it and its
  descendants make. `Runner.Checked`: the families of labelled actions of documents that were built.
* `Runner.Closed`: a runner under a closed document whose fires have definitions that the document equips.
  `Runner.ofLabel_meets`, `Runner.ofBullet_meets`: such a runner is built, or a limit is met.
* `Runner.Closed.call`, `Runner.Closed.made`, `Runner.Descends.closed`: its family is like that too.
  `Runner.Checked.closed`: so it is for labels of documents that were built.
* `Runner.tick_failure`: a tick fails only because a formula cannot be evaluated.
-/

namespace Barrage

namespace Runner

/-- The family of a runner. The hosts of its members may be of different types. -/
inductive Descends (r₀ : Runner) : Runner → Prop where
  | self : Descends r₀ r₀
  /-- A host may do anything to a member. -/
  | call {φ ρ α : Type} [RandomSource ρ] [BulletFactory φ α] {r : Runner} (c : Call φ ρ α) :
    Descends r₀ r → Descends r₀ (c.run r).1
  /-- The bullets that a member makes carry members. -/
  | spawned {φ ρ α : Type} [RandomSource ρ] [BulletFactory φ α] {r r' : Runner} (frame : Frame)
    (owner : Bullet α) (factory : φ) (source : ρ) {w : Spawn α}
    (hw : w ∈ (r.tick frame owner factory source).spawned) (hr : w.runner = some r') :
    Descends r₀ r → Descends r₀ r'

/-- The runners of the families of labelled actions, in documents that were built. -/
inductive Checked (r : Runner) : Prop where
  | label {draft : Draft} {doc : Document} {config : Config} {label : String} {params : Params}
    {r₀ : Runner} (hdoc : draft.build = .ok doc)
    (h₀ : ofLabel ⟨doc, config⟩ label params = .ok r₀) (hr : r₀.Descends r)

/-- A runner under a closed document whose fires have definitions that the document equips. -/
structure Closed (r : Runner) : Prop where
  document : r.builder.document.Closed
  fires : (Step.sequence r.root).Fires r.builder.document.Equips

theorem Closed.bind {r : Runner} (h : r.Closed) (owner : BulletId) : (r.bind owner).Closed :=
  ⟨h.document, h.fires⟩

variable {b : Builder}

/-- A bullet definition that a closed document equips has a runner, or a limit is met. -/
theorem ofBullet_meets (hb : b.document.Closed) {d : BulletDef Node} (hd : b.document.Equips d)
    (params : Params) : Except.Meets Closed (fun x => x.isLimit = true) (ofBullet b d params) :=
  (b.bullet_meets hb hd).map fun _ hs => ⟨hb, hs⟩

/-- An action that a closed document has under a label has a runner, or a limit is met. -/
theorem ofLabel_meets (hb : b.document.Closed) {label : String} {a : Action Node}
    (ha : b.document.resolveAction label = .ok a) (params : Params) :
    Except.Meets Closed (fun x => x.isLimit = true) (ofLabel b label params) := by
  obtain ⟨a', ha', hcovers⟩ := hb.action (Document.defines_of_resolveAction ha)
  rw [ofLabel, ha']
  exact (b.action_meets hb hcovers).map fun _ hs => ⟨hb, hs⟩

theorem closed_of_label (hb : b.document.Closed) {label : String} {params : Params} {r : Runner}
    (h : ofLabel b label params = .ok r) : r.Closed := by
  cases ha : b.document.resolveAction label with
  | ok a => exact (ofLabel_meets hb ha params).ok h
  | error _ =>
    rw [ofLabel, ha] at h
    cases h

variable {φ ρ α : Type} [RandomSource ρ] [BulletFactory φ α]

/-- Whatever is done to a closed runner leaves it closed. -/
theorem Closed.call {r : Runner} (h : r.Closed) (c : Call φ ρ α) : (c.run r).1.Closed := by
  have hreach : r.Reach (c.run r).1 := .call c .refl
  obtain ⟨hbuilder, -, hroot⟩ := hreach.blank
  refine ⟨hbuilder ▸ h.document, ?_⟩
  rw [hbuilder]
  exact (Sequence.fires_congr hroot).2 h.fires

/-- The bullets that a closed runner makes have closed runners, and those whose patterns could not be
built have met a limit. -/
theorem Closed.made {r : Runner} (h : r.Closed) (frame : Frame) (owner : Bullet α) (factory : φ)
    (source : ρ) {w : Spawn α} (hw : w ∈ (r.tick frame owner factory source).spawned) :
    (∀ r', w.runner = some r' → r'.Closed) ∧ ∀ x, w.fault = some x → x.isLimit = true := by
  have hmade : w.IsMade r.builder ∧ r.builder.document.Equips w.definition := by
    rcases r.tick_cases frame owner factory source with ⟨-, ht⟩ | ⟨-, -, ht⟩ | ⟨-, -, ht⟩ <;>
      rw [ht] at hw
    · cases hw
    · cases hw
    · have hadds : (r.turn owner factory source).Adds
          (fun w => w.IsMade r.builder ∧ r.builder.document.Equips w.definition)
          (r.root.advance ⟨r.builder, frame⟩ r.params (r.turn owner factory source)).turn :=
        Sequence.advance_adds (fun definition request bullet hd =>
          ⟨Spawn.isMade_of definition request bullet r.builder, by rwa [Spawn.definition_of]⟩)
          r.params h.fires _
      exact (hadds w hw).resolve_left (by simp [turn, Turn.start])
  obtain ⟨hmade, hequips⟩ := hmade
  have hmeets := ofBullet_meets h.document hequips w.request.params
  rcases hmade.cases with ⟨x, hx, hnone, hfault⟩ | ⟨hnone, hfault⟩ | ⟨r', hr, hsome, hfault⟩
  · refine ⟨fun r' hr => ?_, fun y hy => ?_⟩
    · cases hnone.symm.trans hr
    · obtain rfl := Option.some.inj (hfault.symm.trans hy)
      exact hmeets.error hx
  · refine ⟨fun r' hr => ?_, fun y hy => ?_⟩
    · cases hnone.symm.trans hr
    · cases hfault.symm.trans hy
  · refine ⟨fun r'' hr' => ?_, fun y hy => ?_⟩
    · obtain rfl := Option.some.inj (hsome.symm.trans hr')
      exact (hmeets.ok hr).bind w.bullet.id
    · cases hfault.symm.trans hy

/-- A tick fails only because a formula cannot be evaluated. -/
theorem tick_failure (r : Runner) (frame : Frame) (owner : Bullet α) (factory : φ) (source : ρ)
    {x : StepError} (hx : (r.tick frame owner factory source).failure = some x) :
    x.isEvaluation = true := by
  rcases r.tick_cases frame owner factory source with ⟨-, ht⟩ | ⟨-, -, ht⟩ | ⟨-, -, ht⟩ <;>
    rw [ht] at hx
  · cases hx
  · cases hx
  · exact Sequence.advance_error _ _ _ _ hx

/-- The family of a closed runner is closed. -/
theorem Descends.closed {r₀ r : Runner} (h : r₀.Descends r) (h₀ : r₀.Closed) : r.Closed := by
  induction h with
  | self => exact h₀
  | call c _ ih => exact ih.call c
  | spawned frame owner factory source hw hr _ ih =>
    exact (ih.made frame owner factory source hw).1 _ hr

omit [RandomSource ρ] [BulletFactory φ α] in
theorem Checked.closed {r : Runner} (h : r.Checked) : r.Closed := by
  obtain ⟨hdoc, h₀, hr⟩ := h
  exact hr.closed (closed_of_label (Draft.build_closed hdoc) h₀)

end Runner

end Barrage
