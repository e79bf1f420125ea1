import Barrage.Host.Foundry
import Barrage.Proofs.Tree.History

/-!
# Trees stay in order

* `steps_in_order`: in every tree that can be reached, at every level, the steps before a cursor are
  done, those after it were not entered, and the one under it has something to do. No call but a reset
  takes a cursor back, and in a turn no step has its turn that is done.
-/

namespace Barrage

/-- In every tree that can be reached, each sequence and each loop is in order: a cursor stays within
the sequence and finds a step until that is done, and no loop counts beyond its target or beyond what
a count can be. Whatever is done to the tree next, no cursor in it goes back and no fire is to be made
again, unless the tree is reset or the body of a loop starts over. In a turn only the steps under the
cursors have theirs, none of them is done unless it is an empty sequence, and a fire makes at most one
bullet until it is reset. The trees of programs and of runners are such trees. -/
theorem steps_in_order {s₀ s : Step} (h₀ : s₀.Built) (h : s₀.Reach s) :
    (∀ q, (Step.sequence q).Part s → q.InOrder ∧
      (q.isDone = false → ∃ c, q.current? = some c ∧ c.Ready)) ∧
    (∀ l, (Step.loop l).Part s → l.InOrder ∧ ∀ n, l.target = some n → n ≤ Scalar.maxCount) ∧
    (∀ (φ ρ α : Type) [RandomSource ρ] [BulletFactory φ α],
      (∀ c : Step.Call φ ρ α, c ≠ .reset → s.Onward (c.run s)) ∧
      ∀ (q : Sequence Step) (stage : Stage) (params : Params) (t : Turn φ ρ α), s = .sequence q →
        ∃ es, t.Does (q.advance stage params t).turn es ∧
          s.Acts es (.sequence (q.advance stage params t).step)) ∧
    (∀ (b : Builder) (o : Program.Origin) (params : Params) (p₀ p : Program),
      o.build b params = .ok p₀ → p₀.Reach p → p₀.step.Built ∧ p₀.step.Reach p.step) ∧
    ∀ r₀ r : Runner, r₀.New → r₀.Reach r →
      (Step.sequence r₀.root).Built ∧ (Step.sequence r₀.root).Reach (.sequence r.root) := by
  -- The parts of a valid tree are valid, and for a sequence and a loop this is their order.
  have hvalid := h.valid h₀
  refine ⟨fun q hq => ?_, fun l hl => ?_, fun φ ρ α _ _ => ⟨fun c hc => ?_, ?_⟩, ?_, ?_⟩
  · have hq : q.InOrder := Sequence.valid_iff.1 (hvalid.everywhere _ hq)
    refine ⟨hq, fun hd => ?_⟩
    have hlt : q.cursor < q.children.length := by simpa [Sequence.isDone] using hd
    have hc : q.current? = some q.children[q.cursor] := List.getElem?_eq_getElem hlt
    exact ⟨_, hc, hq.current _ hc⟩
  · have hl' : l.InOrder := LoopStep.valid_iff.1 (hvalid.everywhere _ hl)
    exact ⟨hl', h.bounded h₀ _ hl⟩
  · cases c with
    | execute stage params t =>
      cases s with
      | sequence q =>
        obtain ⟨es, -, hacts⟩ := Sequence.advance_acts stage params hvalid t
        exact hacts.onward
      | loop _ | fire _ | mutation _ | wait _ | vanish _ => exact Step.onward_refl _
    | update => exact s.onward_expire
    | reset => exact absurd rfl hc
    | finish => exact s.onward_finish
    | bind _ => exact s.onward_refl
  · rintro q stage params t rfl
    exact Sequence.advance_acts stage params hvalid t
  · exact fun b o params p₀ p hp₀ hp => ⟨Program.Origin.built hp₀, hp.tree⟩
  · exact fun r₀ r hr₀ hr => ⟨hr₀.built, hr.tree⟩

/-- Two volleys with a pause after each. -/
def pausedVolleys : Action Node :=
  ⟨none, [.loop (.number 2) (.action ⟨none,
    [.fire ⟨none, none, none, .inline ⟨none, none, none, []⟩⟩, .wait (.number 1)]⟩)]⟩

/-- A turn of the first bullet, with no iterations to spare. -/
def shortTurn : Turn Foundry Tape (Option String) :=
  .start LabelledBullet.first .plain ⟨[], 0⟩ 1 .nothing

set_option maxRecDepth 10000 in
/-- A turn with one iteration makes the bullet of the first volley and leaves the loop at the pause. -/
theorem steps_in_order_paused_volleys :
    ∃ q q' : Sequence Step, (Builder.bare .standard).action pausedVolleys = .ok q ∧
      (Step.sequence q).Reach (.sequence q') ∧ q'.activePath = [.loop, .wait] ∧
      (q'.isDone = false → ∃ c, q'.current? = some c ∧ c.Ready) ∧
      (Step.sequence q').Onward (.sequence q'.finish) := by
  obtain ⟨q, hq⟩ : ∃ q, (Builder.bare .standard).action pausedVolleys = .ok q := ⟨_, rfl⟩
  have hreach : (Step.sequence q).Reach (.sequence _) :=
    .call (.execute ⟨.bare .standard, ⟨0.5, ⟨0, 0⟩, 0⟩⟩ [] shortTurn) .refl
  have hpath : (q.advance ⟨.bare .standard, ⟨0.5, ⟨0, 0⟩, 0⟩⟩ [] shortTurn).step.activePath
      = [.loop, .wait] := by
    cases hq
    decide
  obtain ⟨hsequences, -, hcalls, -⟩ := steps_in_order (.action hq) hreach
  have hnext := (hcalls Foundry Tape (Option String)).1 .finish fun h => by cases h
  exact ⟨q, _, hq, hreach, hpath, (hsequences _ .refl).2, hnext⟩

end Barrage
