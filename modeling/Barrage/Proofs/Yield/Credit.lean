import Barrage.Host.Foundry
import Barrage.Proofs.Yield.Last
import Barrage.Runner.Reach
import Barrage.Step.Path

/-!
# The time of a tick is credited once

* `Credited`: turns of timed steps that credit the time of a tick once each, all of them to steps that
  were entered in the tick but for the first, if a step was under way.
* `Sequence.advance_credits`: the turns of timed steps in a turn of a valid sequence are like that.
* `tick_credits_once`: what this means for one tick of a pattern.
* `two_waits_in_a_tick`: nevertheless a tick may advance several pauses that take time.
-/

namespace Barrage

/-! ## Turns that credit time once -/

/-- Each turn credits a step with some time once, and the step goes on unless its own is over. All
steps were just entered, but for the first if one was under way. -/
structure Credited (delta : Scalar) (underway : Bool) (bs : List Beat) : Prop where
  once : ∀ b ∈ bs, b.running = !decide (b.duration ≤ b.elapsed + delta)
  fresh : ∀ b ∈ if underway then bs.tail else bs, b.elapsed = 0

/-- Whether a turn ended a step that takes longer than some time. -/
def Beat.endsLonger (delta : Scalar) (b : Beat) : Bool :=
  !b.running && !decide (b.duration ≤ 0 + delta)

namespace Credited

variable {delta : Scalar} {underway : Bool} {bs bs' : List Beat}

theorem nil : Credited delta underway [] := by
  refine ⟨by simp, ?_⟩
  cases underway <;> simp

theorem append (h : Credited delta underway bs) (h' : Credited delta false bs') :
    Credited delta underway (bs ++ bs') := by
  have hfresh : ∀ b ∈ bs', b.elapsed = 0 := h'.fresh
  refine ⟨fun b hb => ?_, fun b hb => ?_⟩
  · rcases List.mem_append.1 hb with hb | hb
    · exact h.once b hb
    · exact h'.once b hb
  · cases underway with
    | false =>
      rcases List.mem_append.1 hb with hb | hb
      · exact h.fresh b hb
      · exact hfresh b hb
    | true =>
      cases bs with
      | nil => exact hfresh b (List.mem_of_mem_tail hb)
      | cons b₀ rest =>
        rcases List.mem_append.1 hb with hb | hb
        · exact h.fresh b hb
        · exact hfresh b hb

/-- One turn of a timed step. -/
theorem single {b : Beat} (hb : b.running = !decide (b.duration ≤ b.elapsed + delta))
    (h : underway = true ∨ b.elapsed = 0) : Credited delta underway [b] := by
  refine ⟨fun b' hb' => ?_, fun b' hb' => ?_⟩
  · rw [List.mem_singleton.1 hb']
    exact hb
  · rcases h with rfl | h
    · cases hb'
    · cases underway with
      | false =>
        rw [List.mem_singleton.1 hb']
        exact h
      | true => cases hb'

/-- A step that was just entered ends only if it takes no longer than it is credited with. -/
theorem endsLonger_le_one (h : Credited delta true bs) : bs.countP (Beat.endsLonger delta) ≤ 1 := by
  have hshort : ∀ b ∈ bs.tail, b.endsLonger delta = false := by
    intro b hb
    have hfresh : b.elapsed = 0 := h.fresh b hb
    rw [Beat.endsLonger, h.once b (List.mem_of_mem_tail hb), hfresh]
    simp
  cases bs with
  | nil => simp
  | cons b rest =>
    have hrest : rest.countP (Beat.endsLonger delta) = 0 :=
      List.countP_eq_zero.2 fun b hb => by simp [hshort b hb]
    rw [List.countP_cons, hrest]
    split <;> omega

end Credited

/-! ## Turns of valid steps -/

variable {φ ρ α : Type}

/-- A turn that credits time once. If more steps may run, the timed step that comes next was not
credited yet. -/
structure Turn.Credits (delta : Scalar) (underway : Bool) (t : Turn φ ρ α)
    (o : Outcome Step (Turn φ ρ α)) : Prop where
  ended : o.error = none → o.turn.mustYield = false → o.step.isDone = true ∨ o.step.Rested
  credited : ∃ es, t.Logs o.turn es ∧ Credited delta underway (beats es)

/-- A turn of a valid step credits time once. -/
def Contract.credits (delta : Scalar) : Contract φ ρ α where
  sequence _ s t o :=
    s.Valid → ∀ underway, underway = true ∨ s.Rested → t.Credits delta underway (o.map .sequence)
  step _ s t o := s.Valid → ∀ underway, underway = true ∨ s.Rested → t.Credits delta underway o
  rounds _ l t o :=
    l.Valid → ∀ underway, underway = true ∨ l.Rested → t.Credits delta underway (o.map .loop)

namespace Turn

variable {delta : Scalar} {underway : Bool} {t t' : Turn φ ρ α} {o : Outcome Step (Turn φ ρ α)}

/-- Events without turns of timed steps may come before it. -/
theorem Credits.prepend {es : List Event} (h : t'.Credits delta underway o) (hl : t.Logs t' es)
    (hes : beats es = []) : t.Credits delta underway o := by
  obtain ⟨es', hl', hc⟩ := h.credited
  exact ⟨h.ended, es ++ es', hl.trans hl', by rwa [beats_append, hes]⟩

theorem Credits.prepend_draws (h : t'.Credits delta underway o) (hd : t.Draws t') :
    t.Credits delta underway o := by
  obtain ⟨es, hl, hin⟩ := hd.logs
  exact h.prepend hl (beats_of_isInner hin)

/-- A turn in which nothing happens. -/
theorem credits_refl {s : Step} {error : Option StepError} (h : error = none → s.isDone = true) :
    t.Credits delta underway ⟨s, t, error⟩ :=
  ⟨fun he _ => .inl (h he), [], .refl t, .nil⟩

theorem beats_leaf {kind : StepKind} {es : List Event} (h : ∀ e ∈ es, e.isInner = true) :
    beats (.began kind :: es) = [] :=
  List.filterMap_eq_nil_iff.2 fun e he => by
    rcases List.mem_cons.1 he with rfl | he
    · rfl
    · exact Event.beat?_of_isInner (h e he)

/-- A leaf that fails does not get credited. -/
theorem LeafFails.credits {kind : StepKind} (h : LeafFails kind t o.turn) (he : o.error ≠ none) :
    t.Credits delta underway o := by
  obtain ⟨es, hl, hin⟩ := h.events
  exact ⟨fun h => absurd h he, _, hl, by rw [beats_leaf hin]; exact .nil⟩

/-- A leaf without a clock is done or stops the turn. -/
theorem LeafEnds.credits_none {kind : StepKind} {running : Bool}
    (h : LeafEnds kind running none t o.turn) (hd : o.step.isDone = true) :
    t.Credits delta underway o := by
  obtain ⟨es, hl, hin⟩ := h.events
  refine ⟨fun _ _ => .inl hd, _, hl, ?_⟩
  rw [beats_append, beats_leaf hin]
  exact .nil

/-- A timed step is credited once and stops the turn unless it is over. -/
theorem LeafEnds.credits_some {kind : StepKind} {clock : Clock} (hk : kind ≠ .vanish)
    (h : LeafEnds kind (!o.step.isDone) (some clock) t o.turn)
    (hd : o.step.isDone = decide (clock.duration ≤ clock.elapsed + delta))
    (hu : underway = true ∨ clock.elapsed = 0) : t.Credits delta underway o := by
  obtain ⟨es, hl, hin⟩ := h.events
  have hy := h.mustYield
  refine ⟨fun _ hrun => .inl ?_, _, hl, ?_⟩
  · -- The turn goes on, so the step did not block it, and is over.
    rw [hrun, Event.stops, beq_false_of_ne hk, Bool.false_or] at hy
    have hy : t.mustYield = false ∧ (!o.step.isDone) = false :=
      Bool.or_eq_false_iff.1 hy.symm
    simpa using hy.2
  · rw [beats_append, beats_leaf hin]
    exact .single (by rw [hd]) hu

end Turn

/-! ## The parts of a turn -/

theorem Sequence.rested_withScope {s : Sequence Step} {scope : Scope} {isNew : Bool} :
    (s.withScope scope isNew).Rested ↔ s.Rested := by
  cases isNew with
  | true =>
    simp only [Sequence.rested_iff, Sequence.withScope, if_true, Step.expireAll_eq_map,
      Sequence.current?, List.getElem?_map, Option.map_eq_some_iff]
    refine ⟨fun h c hc => Step.rested_expire.1 (h _ ⟨c, hc, rfl⟩), ?_⟩
    rintro h _ ⟨c, hc, rfl⟩
    exact Step.rested_expire.2 (h c hc)
  | false => simp [Sequence.rested_iff, Sequence.withScope, Sequence.current?]

/-- The turn of a sequence is that of the step under its cursor. -/
theorem Turn.Credits.settle {delta : Scalar} {underway : Bool} {s : Sequence Step} {step : Step}
    {t : Turn φ ρ α} {o : Outcome Step (Turn φ ρ α)} (hs : s.Valid) (hc : s.current? = some step)
    (h : t.Credits delta underway o) : t.Credits delta underway ((s.settle o).map .sequence) := by
  have hlt : s.cursor < s.children.length := (List.getElem?_eq_some_iff.1 hc).1
  obtain ⟨es, hl, hcredit⟩ := h.credited
  rw [Sequence.settle]
  cases he : o.error with
  | some e => exact ⟨fun h => absurd h (Option.some_ne_none e), es, hl, hcredit⟩
  | none =>
    by_cases hd : o.step.isDone = true
    · simp only [if_pos hd]
      refine ⟨fun _ _ => .inr (Sequence.rested_iff.2 fun c hc' => ?_), es, hl, hcredit⟩
      -- The next step was not entered yet.
      have hc' : (s.children.set s.cursor o.step)[s.cursor + 1]? = some c := hc'
      rw [List.getElem?_set_ne (Nat.ne_of_lt (Nat.lt_succ_self _))] at hc'
      exact ((Sequence.valid_iff.1 hs).after _ c (Nat.lt_succ_self _) hc').rested
    · simp only [if_neg hd]
      refine ⟨fun _ hy => .inr (Sequence.rested_iff.2 fun c hc' => ?_), es, hl, hcredit⟩
      obtain rfl : o.step = c := by
        simpa [Sequence.current?, List.getElem?_set_self hlt] using hc'
      exact (h.ended he hy).resolve_left hd

theorem LoopStep.rested_settle {l : LoopStep Step} (h : l.body.isDone = true ∨ l.body.Rested) :
    l.settle.Rested := by
  rw [LoopStep.rested_iff, LoopStep.settle]
  split
  · exact Step.Pristine.rested (s := .sequence l.body.reset) l.body.pristine_reset
  · next hd => exact h.resolve_left hd

variable [RandomSource ρ] [BulletFactory φ α]

theorem Contract.credits_kept (stage : Stage) :
    ((valid (φ := φ) (ρ := ρ) (α := α)).and (credits stage.frame.delta)).Kept stage where
  done hd := ⟨(valid_kept stage).done hd, fun _ _ _ => Turn.credits_refl fun _ => hd⟩
  scopeFails hd hr := by
    refine ⟨(valid_kept stage).scopeFails hd hr, fun _ _ _ => ?_⟩
    have hdraws := Turn.Draws.of_resolve hr
    exact Turn.Credits.prepend_draws (Turn.credits_refl fun h => absurd h (Option.some_ne_none _))
      hdraws
  current {_ _ _ scope isNew _ _ _} hd hr hc ho := by
    refine ⟨(valid_kept stage).current hd hr hc ho.1, fun hs u hu => ?_⟩
    have hdraws := Turn.Draws.of_resolve hr
    have hs' := hs.withScope scope isNew
    have hstep := (Sequence.valid_iff.1 hs').valid _ (List.mem_of_getElem? hc)
    refine ((ho.2 hstep u ?_).settle hs' hc).prepend_draws hdraws
    -- A sequence at rest has no time credited to the step under its cursor.
    exact hu.imp_right fun h => Sequence.rested_iff.1 (Sequence.rested_withScope.2 h) _ hc
  nested ho := ⟨(valid_kept stage).nested ho.1, ho.2⟩
  fire params f t := by
    refine ⟨(valid_kept stage).fire params f t, fun _ _ _ => ?_⟩
    rcases f.logs_dispatch stage params t with ⟨_, _, _, h, hl⟩ | ⟨_, _, hf, h, hl⟩ <;> rw [h]
    · exact hl.credits (by simp [Outcome.map])
    · exact hl.credits_none hf
  mutation params m t := by
    refine ⟨(valid_kept stage).mutation params m t, fun _ _ hm => ?_⟩
    rcases m.logs_dispatch stage params t with ⟨_, _, h, hl⟩ | ⟨_, _, _, hm', h, hl⟩ <;> rw [h]
    · exact hl.credits (by simp [Outcome.map])
    · exact hl.credits_some (by decide) (by rw [hm']; rfl) hm
  wait params w t := by
    refine ⟨(valid_kept stage).wait params w t, fun _ _ hw => ?_⟩
    rcases w.logs_dispatch stage params t with ⟨_, _, h, hl⟩ | ⟨_, _, _, hw', h, hl⟩ <;> rw [h]
    · exact hl.credits (by simp [Outcome.map])
    · exact hl.credits_some (by decide) (by rw [hw']; rfl) hw
  vanish params triggered t :=
    ⟨(valid_kept stage).vanish params triggered t, fun _ _ _ =>
      (Turn.logs_vanish t).credits_none rfl⟩
  countFails hl hr := by
    refine ⟨(valid_kept stage).countFails hl hr, fun _ _ _ => ?_⟩
    have hdraws := Turn.Draws.of_eval hr
    exact Turn.Credits.prepend_draws (Turn.credits_refl fun h => absurd h (Option.some_ne_none _))
      hdraws
  entered {_ l _ _ _ _} hl hr ho := by
    refine ⟨(valid_kept stage).entered hl hr ho.1, fun hs u hu => ?_⟩
    have hdraws := Turn.Draws.of_eval hr
    refine (ho.2 (LoopStep.Valid.enter hs hl _) u ?_).prepend_draws hdraws
    exact hu.imp_right fun h => LoopStep.rested_iff.2 ((LoopStep.rested_iff (l := l)).1 h)
  resumed hl ho := ⟨(valid_kept stage).resumed hl ho.1, ho.2⟩
  ended {_ l _ _} hl hn := by
    refine ⟨(valid_kept stage).ended hl hn, fun _ _ _ => Turn.credits_refl fun _ => ?_⟩
    simpa [Step.isDone, LoopStep.isDone, hl] using hn
  -- No more steps may run, so nothing is said of the one that comes next.
  exhausted hl hn hb :=
    ⟨(valid_kept stage).exhausted hl hn hb, fun _ _ _ => ⟨fun _ hy => (by cases hy), [.exhausted],
      Turn.logs_log _ _, .nil⟩⟩
  fails {_ l t n o e} hl hn hb ho he := by
    refine ⟨(valid_kept stage).fails hl hn hb ho.1 he, fun hs u hu => ?_⟩
    have hbody := ho.2 (LoopStep.valid_iff.1 hs).body u (hu.imp_right LoopStep.rested_iff.1)
    exact ⟨fun h => absurd h (Option.some_ne_none e),
      (hbody.prepend (Turn.logs_log _ .iterated) rfl).credited⟩
  yields {_ l t n o} hl hn hb ho he hy := by
    refine ⟨(valid_kept stage).yields hl hn hb ho.1 he hy, fun hs u hu => ?_⟩
    have hbody := ho.2 (LoopStep.valid_iff.1 hs).body u (hu.imp_right LoopStep.rested_iff.1)
    exact ⟨fun _ h => (Bool.false_ne_true (h.symm.trans hy)).elim,
      (hbody.prepend (Turn.logs_log _ .iterated) rfl).credited⟩
  again {_ l t n o o'} hl hn hb ho he hy hr := by
    refine ⟨(valid_kept stage).again hl hn hb ho.1 he hy hr.1, fun hs u hu => ?_⟩
    have hv := (LoopStep.valid_iff.1 hs).body
    have hbody := ho.2 hv u (hu.imp_right LoopStep.rested_iff.1)
    obtain ⟨es, hlogs, hcredit⟩ := (hbody.prepend (Turn.logs_log _ .iterated) rfl).credited
    -- Only the first round can have a step that was under way: the turn did not have to stop in it, so
    -- the loop is at rest now.
    have hrest := hr.2 (hs.settle hl hn (ho.1 hv).1) false
      (.inr (LoopStep.rested_settle (hbody.ended he hy)))
    obtain ⟨es', hlogs', hcredit'⟩ := hrest.credited
    refine ⟨hrest.ended, es ++ es', hlogs.trans hlogs', ?_⟩
    rw [beats_append]
    exact hcredit.append hcredit'

/-- A turn of a valid sequence credits time once. -/
theorem Sequence.advance_credits (stage : Stage) (params : Params) {s : Sequence Step}
    (hs : s.Valid) (t : Turn φ ρ α) :
    ∃ es, t.Logs (s.advance stage params t).turn es ∧
      Credited stage.frame.delta true (beats es) :=
  (((Contract.credits_kept stage).advance params s t).2 hs true (.inl rfl)).credited

/-! ## The ticks of a pattern -/

/-- A tick advances each timed step that it reaches by its time, once: all of them but the first were
entered in this tick with no time credited, and one that goes on is the last thing that happens. So
at most one step that takes longer than the tick ends in it. -/
theorem tick_credits_once {r₀ r : Runner}
    (h₀ : Runner.New r₀) (h : r₀.Reach r) (frame : Frame) (owner : Bullet α) (factory : φ)
    (source : ρ) :
    let events := (r.tick frame owner factory source).journal.toList
    (∀ b ∈ beats events, b.running = !decide (b.duration ≤ b.elapsed + frame.delta)) ∧
      (∀ b ∈ (beats events).tail, b.elapsed = 0) ∧
      (∀ before e after, events = before ++ e :: after → e.stops = true → after = []) ∧
      (beats events).countP (Beat.endsLonger frame.delta) ≤ 1 := by
  intro events
  rcases r.journal_tick frame owner factory source with hnil | ⟨-, hlogs⟩
  · have : events = [] := hnil
    simp [this]
  have hlogs : (r.turn owner factory source).Logs _ events := hlogs
  obtain ⟨es, hes, hcredit⟩ := Sequence.advance_credits ⟨r.builder, frame⟩ r.params (h.valid h₀)
    (r.turn owner factory source)
  obtain rfl := hlogs.unique hes
  refine ⟨hcredit.once, hcredit.fresh, fun before e after he hstops => ?_, ?_⟩
  · -- Whatever stops a turn is the last thing in its journal.
    have hlast := Sequence.advance_stopsLast ⟨r.builder, frame⟩ r.params r.root
      (r.turn owner factory source)
    exact hlast.nothing_after rfl (he ▸ hlogs) hstops
  · exact hcredit.endsLonger_le_one

/-- Two pauses of the same length, one after the other. -/
def twoPauses (length : Scalar) : Action Node :=
  ⟨none, [.loop (.number 2) (.action ⟨none, [.wait (.number length)]⟩)]⟩

set_option maxRecDepth 10000 in
/-- Two pauses of one and a half ticks. The second tick ends the first one and credits the second. -/
theorem tick_credits_once_two_pauses :
    ∃ r₀ r : Runner, Runner.ofAction (.bare .standard) (twoPauses 1.5) [] = .ok r₀ ∧ r₀.Reach r ∧
      beats r.quietTick.journal.toList = [⟨⟨1, 1.5⟩, false⟩, ⟨⟨0, 1.5⟩, true⟩] ∧
      (beats r.quietTick.journal.toList).countP (Beat.endsLonger 1) ≤ 1 := by
  obtain ⟨r₀, h₀⟩ : ∃ r₀, Runner.ofAction (.bare .standard) (twoPauses 1.5) [] = .ok r₀ := ⟨_, rfl⟩
  have hr : r₀.Reach r₀.quietTick.runner :=
    .call (.tick ⟨1, ⟨0, -100⟩, 0⟩ LabelledBullet.first Foundry.plain (⟨[], 0⟩ : Tape)) .refl
  have hbeats : beats r₀.quietTick.runner.quietTick.journal.toList
      = [⟨⟨1, 1.5⟩, false⟩, ⟨⟨0, 1.5⟩, true⟩] := by
    cases h₀
    decide
  have h := tick_credits_once (.action h₀) hr ⟨1, ⟨0, -100⟩, 0⟩ LabelledBullet.first Foundry.plain
    (⟨[], 0⟩ : Tape)
  exact ⟨r₀, _, h₀, hr, hbeats, h.2.2.2⟩

set_option maxRecDepth 10000 in
/-- A tick may advance several pauses that take time: one that ends in it does not stop it. -/
theorem two_waits_in_a_tick :
    ¬ ∀ (r₀ r : Runner) (frame : Frame) (owner : LabelledBullet) (factory : Foundry)
        (source : Tape), r₀.New → r₀.Reach r → r.isRunning = true → 0 < frame.delta →
      (beats (r.tick frame owner factory source).journal.toList).countP
        (fun b => decide (0 < b.duration)) ≤ 1 := by
  intro h
  obtain ⟨r₀, h₀⟩ : ∃ r₀, Runner.ofAction (.bare .standard) (twoPauses 1) [] = .ok r₀ := ⟨_, rfl⟩
  have htwo : (beats r₀.quietTick.journal.toList).countP (fun b => decide (0 < b.duration)) = 2 ∧
      r₀.isRunning = true := by
    cases h₀
    decide
  have hone := h r₀ r₀ ⟨1, ⟨0, -100⟩, 0⟩ LabelledBullet.first Foundry.plain ⟨[], 0⟩ (.action h₀)
    .refl htwo.2 (by decide)
  have htwo : 2 ≤ 1 := Nat.le_trans (Nat.le_of_eq htwo.1.symm) hone
  exact absurd htwo (by decide)

end Barrage
