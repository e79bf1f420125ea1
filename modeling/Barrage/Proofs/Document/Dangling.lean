import Barrage.Proofs.Swarm.Removal
import Barrage.Swarm.Family

/-!
# No pattern of a checked document lacks a definition

A document is checked once, by a walk over its definitions. Runners look definitions up as they are
built, and those of bullets are built only when the bullets are made.

* `checked_never_dangle`: no runner of a checked document, and none of its family, ever needs a label
  that the document does not define.
-/

namespace Barrage

/-- Take any labelled action of a document that was built, and any parameters and configuration. Its
runner is built, or a limit is met: an operation that is not supported, or nesting that is too deep. What
a host does to the runner, and how many generations of bullets are made, does not matter: a tick of a
member of its family fails only because a formula cannot be evaluated, and the pattern of a bullet is
built or meets a limit. A swarm into which such patterns alone were inserted reports no other errors.

Ticks of runners of other documents fail only because a formula cannot be evaluated, too. -/
theorem checked_never_dangle {φ ρ α : Type} [RandomSource ρ] [BulletFactory φ α] {draft : Draft}
    {doc : Document} (hdoc : draft.build = .ok doc) {label : String} {a : Action Node}
    (ha : doc.resolveAction label = .ok a) (params : Params) (config : Config) :
    (∀ x, Runner.ofLabel ⟨doc, config⟩ label params = .error x →
      x.isLimit = true ∧ x.isNotFound = false) ∧
    (∀ r₀ r, Runner.ofLabel ⟨doc, config⟩ label params = .ok r₀ → r₀.Descends r →
      ∀ (frame : Frame) (owner : Bullet α) (factory : φ) (source : ρ),
        let t := r.tick frame owner factory source
        (∀ x, t.failure = some x → x.isEvaluation = true ∧ x.isNotFound = false) ∧
        ∀ w ∈ t.spawned, ∀ x, w.fault = some x → x.isLimit = true ∧ x.isNotFound = false) ∧
    (∀ s : Swarm α, s.Hosts Runner.Checked → ∀ (frame : Frame) (factory : φ) (source : ρ),
      ∀ line ∈ (s.tick frame factory source).report.aborted,
        (line.2.isEvaluation = true ∨ line.2.isLimit = true) ∧ line.2.isNotFound = false) ∧
    ∀ (r : Runner) (frame : Frame) (owner : Bullet α) (factory : φ) (source : ρ) (x : StepError),
      (r.tick frame owner factory source).failure = some x → x.isEvaluation = true := by
  have hclosed := Draft.build_closed hdoc
  refine ⟨fun x hx => ?_, fun r₀ r h₀ hr frame owner factory source => ⟨fun x hx => ?_,
    fun w hw x hx => ?_⟩, fun s hs frame factory source line hline => ?_,
    fun r frame owner factory source x hx => ?_⟩
  · have hlimit := (Runner.ofLabel_meets (b := ⟨doc, config⟩) hclosed ha params).error hx
    exact ⟨hlimit, StepError.isNotFound_of_isLimit hlimit⟩
  · have heval := r.tick_failure frame owner factory source hx
    exact ⟨heval, StepError.isNotFound_of_isEvaluation heval⟩
  · have hfamily := hr.closed (Runner.closed_of_label hclosed h₀)
    have hlimit := (hfamily.made frame owner factory source hw).2 x hx
    exact ⟨hlimit, StepError.isNotFound_of_isLimit hlimit⟩
  · have hall := (hs.closed fun _ => Runner.Checked.closed).aborted frame factory source line hline
    exact ⟨hall, hall.elim StepError.isNotFound_of_isEvaluation StepError.isNotFound_of_isLimit⟩
  · exact r.tick_failure frame owner factory source hx

/-- An action that fires a bullet by its label and waits, in the same turn, for a parameter that it does
not have, and the definition of that bullet, which accelerates. -/
def overreaching : Draft :=
  ⟨[⟨some "top", [.loop (.number 1) (.action ⟨none,
      [.fire ⟨none, none, none, .reference ⟨"shot", []⟩⟩, .wait (.param 1)]⟩)]⟩], [],
    [⟨some "shot", none, none, [.accel none none (.number 1)]⟩]⟩

theorem Swarm.hosts_single {P : Runner → Prop} {r : Runner} (h : P r) : (single r).Hosts P := by
  refine .call (φ := Foundry) (ρ := Tape) (.insert LabelledBullet.first (some r)) (fun r' hr => ?_) .empty
  obtain rfl := Option.some.inj hr
  exact h

set_option maxRecDepth 10000 in
/-- The bullet is found by its label. The action fails for the parameter, the bullet because it cannot
accelerate, and neither for a label; nor is any other label of the document missed. -/
theorem checked_never_dangle_overreaching :
    ∃ (doc : Document) (r : Runner), overreaching.build = .ok doc ∧
      Runner.ofLabel ⟨doc, .standard⟩ "top" [] = .ok r ∧
      (Swarm.single r).quietTick.report.aborted
        = [(⟨1⟩, .evaluation (.paramOutOfRange 1 0)), (⟨2⟩, .unsupported .accel)] ∧
      (∀ line ∈ (Swarm.single r).quietTick.report.aborted, line.2.isNotFound = false) ∧
      (r.quietTick.failure = some (.evaluation (.paramOutOfRange 1 0)) ∧
        ∀ x, r.quietTick.failure = some x → x.isNotFound = false) ∧
      ∀ w ∈ r.quietTick.spawned, ∀ x, w.fault = some x → x.isLimit = true := by
  obtain ⟨doc, hdoc⟩ : ∃ doc, overreaching.build = .ok doc := ⟨_, rfl⟩
  obtain ⟨a, ha⟩ : ∃ a, doc.resolveAction "top" = .ok a := by
    cases hdoc
    exact ⟨_, rfl⟩
  obtain ⟨r, hr⟩ : ∃ r, Runner.ofLabel ⟨doc, .standard⟩ "top" [] = .ok r := by
    cases hdoc
    exact ⟨_, rfl⟩
  have haborted : (Swarm.single r).quietTick.report.aborted
        = [(⟨1⟩, .evaluation (.paramOutOfRange 1 0)), (⟨2⟩, .unsupported .accel)] ∧
      r.quietTick.failure = some (.evaluation (.paramOutOfRange 1 0)) := by
    cases hdoc
    cases hr
    decide
  obtain ⟨-, hfamily, hswarms, -⟩ := checked_never_dangle (φ := Foundry) (ρ := Tape)
    (α := Option String) hdoc ha [] .standard
  have hhosts : (Swarm.single r).Hosts Runner.Checked :=
    Swarm.hosts_single (.label hdoc hr .self)
  obtain ⟨hfailure, hfaults⟩ := hfamily r r hr .self ⟨1, ⟨0, -100⟩, 0⟩ LabelledBullet.first .plain
    ⟨[], 0⟩
  exact ⟨doc, r, hdoc, hr, haborted.1, fun line hline => (hswarms _ hhosts _ _ _ line hline).2,
    ⟨haborted.2, fun x hx => (hfailure x hx).2⟩, fun w hw x hx => (hfaults w hw x hx).1⟩

end Barrage
