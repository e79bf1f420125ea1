import Barrage.Step.Counters
import Barrage.Step.Work
import Barrage.Turn.Blank
import Barrage.Turn.Journal
import Barrage.Turn.Valid

/-!
# The pace of a turn

A turn starts an iteration of each loop that it comes upon along the cursors. Either the iterations
that may be started are enough for that, and a step has its turn or a cursor or counter moves on, or
they are not, and the turn ends with nothing done.

* `Moved`: something happened in a step, and no more loops are entered along its cursors than there
  were iterations.
* `Stalled`: nothing happened in a step, and there are more.
* `Pace`: a step is done, or it moved, or it stalled.
* `Sequence.advance_paces`: every turn of a valid sequence that has no error is like that.
-/

namespace Barrage

/-- Whether steps of a kind take no time and leave their owner alone. -/
def StepKind.isUntimed : StepKind → Bool
  | .loop | .fire => true
  | _ => false

/-- A step after a turn in which some leaf had its turn, or a cursor or counter moved on. -/
structure Moved (budget : Nat) (es : List Event) (s s' : Step) : Prop where
  acted : (∃ kind, .began kind ∈ es) ∨ Ahead s.counters s'.counters
  keeps : s'.counters = s.counters ∨ Ahead s.counters s'.counters
  within : s'.entered ≤ budget
  less : s.only StepKind.isUntimed = true → s'.work < s.work

/-- A step after a turn that ended because a loop found no iterations left before anything else could
happen. -/
structure Stalled (budget : Nat) (es : List Event) (s s' : Step) : Prop where
  calm : ∀ kind, .began kind ∉ es
  same : s'.counters = s.counters
  undone : s'.isDone = false
  beyond : budget < s'.entered
  least : s'.entered ≤ max s.entered (budget + 1)
  noMore : s'.work ≤ s.work

/-- What a turn comes to. -/
inductive Pace (budget : Nat) (es : List Event) (stops : Bool) (s s' : Step) : Prop where
  | done (isDone : s'.isDone = true)
    (keeps : s'.counters = s.counters ∨ Ahead s.counters s'.counters)
    (before : s.isDone = false → s.entered ≤ budget)
  | moves (moved : Moved budget es s s') (before : s.isDone = false → s.entered ≤ budget)
    (idle : stops = false → s'.entered = 0)
  | stalls (stopped : stops = true) (stalled : Stalled budget es s s')

/-- Only beginnings of leaves matter among the events. -/
theorem Pace.events {budget : Nat} {es es' : List Event} {stops : Bool} {s s' : Step}
    (h : Pace budget es stops s s') (hes : ∀ kind, .began kind ∈ es' ↔ .began kind ∈ es) :
    Pace budget es' stops s s' := by
  rcases h with ⟨hd, hk, hb⟩ | ⟨⟨ha, hk, hw, hless⟩, hb, hi⟩ |
    ⟨hstop, ⟨hc, hsame, hu, hbeyond, hleast, hmore⟩⟩
  · exact .done hd hk hb
  · exact .moves ⟨ha.imp_left fun ⟨kind, hmem⟩ => ⟨kind, (hes kind).2 hmem⟩, hk, hw, hless⟩ hb hi
  · exact .stalls hstop
      ⟨fun kind hmem => hc kind ((hes kind).1 hmem), hsame, hu, hbeyond, hleast, hmore⟩

variable {φ ρ α : Type}

/-- What a turn with some events comes to. The owner is only removed if a leaf has its turn. -/
structure Turn.Paces (t : Turn φ ρ α) (s : Step) (o : Outcome Step (Turn φ ρ α))
    (es : List Event) : Prop where
  logs : t.Logs o.turn es
  fewer : o.turn.budget ≤ t.budget
  removed : (s.only StepKind.isUntimed = true ∨ ∀ kind, .began kind ∉ es) →
    o.turn.removed = t.removed
  pace : Pace t.budget es o.turn.mustYield s o.step

namespace Turn

variable {t t' : Turn φ ρ α} {s s₀ : Step} {o : Outcome Step (Turn φ ρ α)} {es es₀ : List Event}

/-- Events other than beginnings of leaves may come before it. -/
theorem Paces.prepend (h : t'.Paces s o es) (hl : t.Logs t' es₀) (hb : t'.budget = t.budget)
    (hr : t'.removed = t.removed) (hes : ∀ e ∈ es₀, e.isInner = true) : t.Paces s o (es₀ ++ es) := by
  have hcalm (kind : StepKind) : Event.began kind ∈ es₀ ++ es ↔ .began kind ∈ es := by
    rw [List.mem_append, or_iff_right]
    exact fun hmem => by cases hes _ hmem
  refine ⟨hl.trans h.logs, hb ▸ h.fewer, fun hs => ?_, ?_⟩
  · rw [← hr]
    exact h.removed (hs.imp_right fun hs kind hmem => hs kind ((hcalm kind).2 hmem))
  · rw [← hb]
    exact h.pace.events hcalm

theorem Paces.prepend_draws (h : t'.Paces s o es) (hd : t.Draws t') : ∃ es, t.Paces s o es := by
  obtain ⟨es₀, hl, hin⟩ := hd.logs
  exact ⟨_, h.prepend hl hd.budget hd.removed hin⟩

/-- A step that counts the same and has as much to do may take the place of the one before the
turn. -/
theorem Paces.congr (h : t.Paces s o es) (hc : s₀.counters = s.counters)
    (hb : (s.isDone = false → s.entered ≤ t.budget) → s₀.isDone = false → s₀.entered ≤ t.budget)
    (he : s.entered ≤ max s₀.entered 1) (hw : s.work ≤ s₀.work)
    (ho : s₀.only StepKind.isUntimed = s.only StepKind.isUntimed) : t.Paces s₀ o es := by
  refine ⟨h.logs, h.fewer, ho ▸ h.removed, ?_⟩
  rcases h.pace with ⟨hd', hk, hb'⟩ | ⟨⟨ha, hk, hin, hless⟩, hb', hi⟩ |
    ⟨hstop, ⟨hcalm, hsame, hu, hbeyond, hleast, hmore⟩⟩
  · exact .done hd' (hc ▸ hk) (hb hb')
  · exact .moves ⟨hc ▸ ha, hc ▸ hk, hin, fun h => Nat.lt_of_lt_of_le (hless (ho ▸ h)) hw⟩ (hb hb') hi
  · exact .stalls hstop ⟨hcalm, hc ▸ hsame, hu, hbeyond, by omega, Nat.le_trans hmore hw⟩

/-- A step that is done and has no turn. -/
theorem paces_of_done (hd : s.isDone = true) : t.Paces s ⟨s, t, none⟩ [] := by
  refine ⟨.refl t, Nat.le_refl _, fun _ => rfl, .done hd (.inl rfl) fun h => ?_⟩
  rw [hd] at h
  cases h

/-- A leaf that had its turn. -/
theorem LeafEnds.paces {kind : StepKind} {running : Bool} {clock : Option Clock}
    (h : LeafEnds kind running clock t o.turn) (hs : s.counters = [] ∧ s.entered = 0)
    (hs' : o.step.counters = [] ∧ o.step.entered = 0)
    (hu : s.only StepKind.isUntimed = true → kind ≠ .vanish ∧ o.step.isDone = true) :
    ∃ es, t.Paces s o es := by
  obtain ⟨es, hl, -⟩ := h.events
  have hbegan : Event.began kind ∈ Event.began kind :: es ++ [.ended kind running clock] := by simp
  have hkeeps : o.step.counters = s.counters := hs'.1.trans hs.1.symm
  refine ⟨_, hl, Nat.le_of_eq h.budget, ?_, ?_⟩
  · rintro (honly | hcalm)
    · rw [h.removed, beq_false_of_ne (hu honly).1, Bool.or_false]
    · exact absurd hbegan (hcalm kind)
  · -- A leaf that is not done has begun, which is enough to have moved.
    have hbefore : s.entered ≤ t.budget := hs.2 ▸ Nat.zero_le _
    by_cases hd : o.step.isDone = true
    · exact .done hd (.inl hkeeps) fun _ => hbefore
    · refine .moves ⟨.inl ⟨kind, hbegan⟩, .inl hkeeps, hs'.2 ▸ Nat.zero_le _, fun h => ?_⟩
        (fun _ => hbefore) fun _ => hs'.2
      exact absurd (hu h).2 hd

end Turn

/-! ## Sequences -/

namespace Sequence

variable (s : Sequence Step) (scope : Scope) (isNew : Bool)

theorem counters_withScope : (s.withScope scope isNew).counters = s.counters := by
  cases isNew with
  | true =>
    rw [counters_eq, counters_eq, withScope, if_pos rfl, Step.expireAll_eq_map]
    exact congrArg _ (Step.countersOfAll_map fun c _ => c.counters_expire)
  | false => rw [counters_eq, counters_eq, withScope, if_neg Bool.false_ne_true]

theorem work_withScope : (s.withScope scope isNew).work = s.work := by
  cases isNew with
  | true =>
    rw [work_eq, work_eq, withScope, if_pos rfl, Step.expireAll_eq_map]
    exact Step.workFrom_map s.cursor fun c _ => c.work_expire
  | false => rw [work_eq, work_eq, withScope, if_neg Bool.false_ne_true]

theorem entered_withScope : (s.withScope scope isNew).entered = s.entered := by
  cases isNew with
  | true =>
    rw [entered_eq, entered_eq, withScope, if_pos rfl, Step.expireAll_eq_map, current?, current?,
      List.getElem?_map]
    cases s.children[s.cursor]? with
    | none => rfl
    | some c => exact c.entered_expire
  | false => rw [entered_eq, entered_eq, withScope, if_neg Bool.false_ne_true, current?, current?]

theorem only_withScope {allowed : StepKind → Bool} :
    (s.withScope scope isNew).only allowed = s.only allowed := by
  rw [Bool.eq_iff_iff, only_iff, only_iff, withScope]
  cases isNew with
  | true =>
    have hexpire (c : Step) : c.expire.only allowed = c.only allowed := by
      rw [← Step.only_blank c.expire, Step.blank_expire, Step.only_blank]
    rw [if_pos rfl, Step.expireAll_eq_map, List.forall_mem_map]
    exact forall₂_congr fun c _ => by rw [hexpire]
  | false => exact Iff.rfl

variable {s}

theorem entered_of_isDone (h : s.isDone = true) : s.entered = 0 := by
  have hle : s.children.length ≤ s.cursor := by simpa [isDone] using h
  rw [entered_eq, current?, List.getElem?_eq_none hle]
  rfl

end Sequence

/-- A ready step that is done has no loops that were entered. -/
theorem Step.Ready.before {s : Step} (hs : s.Ready) {budget : Nat}
    (h : s.isDone = false → s.entered ≤ budget) : s.entered ≤ budget := by
  cases hd : s.isDone with
  | false => exact h hd
  | true =>
    cases s with
    | sequence s =>
      have hnone : s.entered = 0 := Sequence.entered_of_isDone hd
      show s.entered ≤ budget
      omega
    | loop l => cases hs hd
    | fire _ | vanish _ | mutation _ | wait _ => exact Nat.zero_le _

/-- When the cursor stays, the loops that were entered are those of the step under it. -/
theorem Sequence.entered_set {s : Sequence Step} {step : Step} (hc : s.current? = some step)
    (step' : Step) : Sequence.entered { s with children := s.children.set s.cursor step' }
      = step'.entered := by
  have hlt : s.cursor < s.children.length := (List.getElem?_eq_some_iff.1 hc).1
  refine Sequence.entered_of_current ?_
  exact List.getElem?_set_self hlt

/-- When the cursor passes a step, no loops were entered from there on. -/
theorem Sequence.entered_pass {s : Sequence Step} (hs : s.Valid) (step' : Step) :
    Sequence.entered { s with children := s.children.set s.cursor step', cursor := s.cursor + 1 }
      = 0 := by
  rw [Sequence.entered_eq]
  cases he : Sequence.current?
      { s with children := s.children.set s.cursor step', cursor := s.cursor + 1 } with
  | none => rfl
  | some c =>
    have he : (s.children.set s.cursor step')[s.cursor + 1]? = some c := he
    rw [List.getElem?_set_ne (Nat.ne_of_lt (Nat.lt_succ_self _))] at he
    exact ((Sequence.valid_iff.1 hs).after _ c (Nat.lt_succ_self _) he).entered

/-- The step under the cursor after its turn, when it is passed. -/
theorem Moved.pass {budget : Nat} {es : List Event} {s : Sequence Step} {step step' : Step}
    (hs : s.Valid) (hc : s.current? = some step) :
    Moved budget es (.sequence s)
      (.sequence { s with children := s.children.set s.cursor step', cursor := s.cursor + 1 }) := by
  have hahead : Ahead s.counters (Sequence.counters
      { s with children := s.children.set s.cursor step', cursor := s.cursor + 1 }) := by
    rw [Sequence.counters_eq, Sequence.counters_eq]
    exact .here (Nat.lt_succ_self _)
  obtain ⟨rest, hwork, hset⟩ := Step.workFrom_set hc
  refine ⟨.inr hahead, .inr hahead, ?_, fun _ => ?_⟩
  · have hnone := Sequence.entered_pass hs step'
    show Sequence.entered _ ≤ budget
    omega
  · show Sequence.work _ < s.work
    rw [Sequence.work_eq, Sequence.work_eq, hwork, (hset step').2]
    omega

/-- The step under the cursor after its turn, when the cursor stays. -/
theorem Moved.stay {budget : Nat} {es : List Event} {s : Sequence Step} {step step' : Step}
    (hc : s.current? = some step) (h : Moved budget es step step') :
    Moved budget es (.sequence s)
      (.sequence { s with children := s.children.set s.cursor step' }) := by
  obtain ⟨before, after, hcounters, hset⟩ := Step.countersOfAll_set hc
  obtain ⟨rest, hwork, hrest⟩ := Step.workFrom_set hc
  have hahead (h : Ahead step.counters step'.counters) : Ahead s.counters
      (Sequence.counters { s with children := s.children.set s.cursor step' }) := by
    rw [Sequence.counters_eq, Sequence.counters_eq, hcounters, hset]
    exact .later ((h.append_right after after).append_left before)
  refine ⟨h.acted.imp_right hahead, h.keeps.imp (fun h => ?_) hahead, ?_, fun ho => ?_⟩
  · show Sequence.counters _ = s.counters
    rw [Sequence.counters_eq, Sequence.counters_eq, hcounters, hset, h]
  · show Sequence.entered _ ≤ budget
    rw [Sequence.entered_set hc]
    exact h.within
  · have hless := h.less (Sequence.only_iff.1 ho step (List.mem_of_getElem? hc))
    show Sequence.work _ < s.work
    rw [Sequence.work_eq, Sequence.work_eq, hwork, (hrest step').1]
    omega

theorem Stalled.stay {budget : Nat} {es : List Event} {s : Sequence Step} {step step' : Step}
    (hc : s.current? = some step) (h : Stalled budget es step step') :
    Stalled budget es (.sequence s)
      (.sequence { s with children := s.children.set s.cursor step' }) := by
  have hlt : s.cursor < s.children.length := (List.getElem?_eq_some_iff.1 hc).1
  obtain ⟨before, after, hcounters, hset⟩ := Step.countersOfAll_set hc
  obtain ⟨rest, hwork, hrest⟩ := Step.workFrom_set hc
  refine ⟨h.calm, ?_, by simpa [Step.isDone, Sequence.isDone] using hlt, ?_, ?_, ?_⟩
  · show Sequence.counters _ = s.counters
    rw [Sequence.counters_eq, Sequence.counters_eq, hcounters, hset, h.same]
  · show budget < Sequence.entered _
    rw [Sequence.entered_set hc]
    exact h.beyond
  · show Sequence.entered _ ≤ max s.entered _
    rw [Sequence.entered_set hc, Sequence.entered_of_current hc]
    exact h.least
  · have := h.noMore
    show Sequence.work _ ≤ s.work
    rw [Sequence.work_eq, Sequence.work_eq, hwork, (hrest step').1]
    omega

/-- The turn of a sequence is that of the step under its cursor. -/
theorem Turn.Paces.settle {t : Turn φ ρ α} {s : Sequence Step} {step : Step}
    {o : Outcome Step (Turn φ ρ α)} {es : List Event} (hs : s.Valid) (hc : s.current? = some step)
    (he : o.error = none) (h : t.Paces step o es) :
    t.Paces (.sequence s) ((s.settle o).map .sequence) es := by
  have honly (h : Step.only StepKind.isUntimed (.sequence s) = true) :
      step.only StepKind.isUntimed = true :=
    Sequence.only_iff.1 h step (List.mem_of_getElem? hc)
  have hready : step.Ready := (Sequence.valid_iff.1 hs).current step hc
  have hbefore (hb : step.isDone = false → step.entered ≤ t.budget) :
      (Step.sequence s).isDone = false → (Step.sequence s).entered ≤ t.budget := fun _ => by
    rw [show (Step.sequence s).entered = s.entered from rfl, Sequence.entered_of_current hc]
    exact hready.before hb
  rw [Sequence.settle, he]
  refine ⟨h.logs, h.fewer, fun hr => h.removed (hr.imp_left honly), ?_⟩
  by_cases hd : o.step.isDone = true
  · -- The cursor moves on, whatever the step did.
    simp only [if_pos hd]
    refine .moves (.pass hs hc) ?_ fun _ => Sequence.entered_pass hs o.step
    rcases h.pace with ⟨-, -, hb⟩ | ⟨-, hb, -⟩ | ⟨-, hstalled⟩
    · exact hbefore hb
    · exact hbefore hb
    · rw [hstalled.undone] at hd
      cases hd
  · simp only [if_neg hd]
    rcases h.pace with ⟨hd', -⟩ | ⟨hmoved, hb, hidle⟩ | ⟨hstop, hstalled⟩
    · exact absurd hd' hd
    · exact .moves (hmoved.stay hc) (hbefore hb) fun hrun =>
        (Sequence.entered_set hc o.step).trans (hidle hrun)
    · exact .stalls hstop (hstalled.stay hc)

/-! ## Loops -/

section Loops

variable {budget n : Nat} {es es' : List Event} {stops : Bool} {l : LoopStep Step}
variable {body : Sequence Step}

theorem LoopStep.entered_body (hl : l.target = some n) :
    LoopStep.entered { l with body } = body.entered + 1 :=
  LoopStep.entered_of_some (n := n) (l := { l with body }) hl

theorem LoopStep.work_body (hl : l.target = some n) (hn : l.completed < n)
    (hspan : body.span = l.body.span) : LoopStep.work { l with body }
      = (n - l.completed - 1) * (l.body.span + 1) + (body.work + 1) := by
  rw [← hspan]
  exact LoopStep.work_of_lt (l := { l with body }) hl hn

/-- A loop whose body starts over was entered, but none in it. -/
theorem LoopStep.entered_restart (hl : l.target = some n) :
    LoopStep.entered { l with completed := l.completed + 1, body := body.reset } = 1 := by
  have hl' : LoopStep.target
      { l with completed := l.completed + 1, body := body.reset } = some n := hl
  have hentered : body.reset.entered = 0 :=
    Step.Pristine.entered (s := .sequence body.reset) body.pristine_reset
  rw [LoopStep.entered_of_some hl', hentered]

/-- A loop whose body is done starts over with one iteration more. -/
theorem Moved.restart (hl : l.target = some n) (hn : l.completed < n) (hb : budget ≠ 0)
    (hspan : body.span = l.body.span) :
    Moved budget es (.loop l)
      (.loop { l with completed := l.completed + 1, body := body.reset }) := by
  have hahead : Ahead l.counters
      (LoopStep.counters { l with completed := l.completed + 1, body := body.reset }) := by
    rw [LoopStep.counters_eq, LoopStep.counters_eq]
    exact .here (Nat.lt_succ_self _)
  have hp : (Step.sequence body.reset).Pristine := body.pristine_reset
  have hl' : LoopStep.target
      { l with completed := l.completed + 1, body := body.reset } = some n := hl
  refine ⟨.inr hahead, .inr hahead, ?_, fun _ => ?_⟩
  · show LoopStep.entered _ ≤ budget
    rw [LoopStep.entered_restart hl]
    omega
  · have hwork : body.reset.work = body.reset.span := hp.work
    have hreset : body.reset.span = l.body.span :=
      (Sequence.span_congr body.blank_reset).trans hspan
    show LoopStep.work _ < l.work
    rw [LoopStep.work_of_lt hl hn]
    rcases Nat.lt_or_ge (l.completed + 1) n with hlt | hle
    · rw [LoopStep.work_of_lt hl' hlt, hwork, hreset]
      obtain ⟨left, hleft⟩ : ∃ left, n - l.completed - 1 = left + 1 := ⟨n - l.completed - 2, by omega⟩
      have hless : n - (l.completed + 1) - 1 = left := by omega
      rw [hleft, hless, Nat.succ_mul]
      omega
    · rw [LoopStep.work_of_le hl' hle]
      omega

/-- A loop whose body moved and goes on. -/
theorem Moved.goOn (hl : l.target = some n) (hn : l.completed < n) (hb : budget ≠ 0)
    (hspan : body.span = l.body.span)
    (h : Moved (budget - 1) es (.sequence l.body) (.sequence body)) :
    Moved budget es (.loop l) (.loop { l with body }) := by
  have hahead (h : Ahead l.body.counters body.counters) :
      Ahead l.counters (LoopStep.counters { l with body }) := by
    rw [LoopStep.counters_eq, LoopStep.counters_eq]
    exact .later h
  refine ⟨h.acted.imp_right hahead, h.keeps.imp (fun h => ?_) hahead, ?_, fun ho => ?_⟩
  · show LoopStep.counters _ = l.counters
    rw [LoopStep.counters_eq, LoopStep.counters_eq]
    exact congrArg _ h
  · have hin : body.entered ≤ budget - 1 := h.within
    show LoopStep.entered _ ≤ budget
    rw [LoopStep.entered_body hl]
    omega
  · have hless : body.work < l.body.work := h.less (LoopStep.only_body ho)
    show LoopStep.work _ < l.work
    rw [LoopStep.work_body hl hn hspan, LoopStep.work_of_lt hl hn]
    omega

/-- A loop whose body stalled. -/
theorem Stalled.goOn (hl : l.target = some n) (hn : l.completed < n) (hb : budget ≠ 0)
    (hspan : body.span = l.body.span)
    (h : Stalled (budget - 1) es (.sequence l.body) (.sequence body)) :
    Stalled budget es (.loop l) (.loop { l with body }) := by
  have hbeyond : budget - 1 < body.entered := h.beyond
  have hleast : body.entered ≤ max l.body.entered (budget - 1 + 1) := h.least
  have hmore : body.work ≤ l.body.work := h.noMore
  refine ⟨h.calm, ?_, by simpa [Step.isDone, LoopStep.isDone, hl] using hn, ?_, ?_, ?_⟩
  · show LoopStep.counters _ = l.counters
    rw [LoopStep.counters_eq, LoopStep.counters_eq]
    exact congrArg _ h.same
  · show budget < LoopStep.entered _
    rw [LoopStep.entered_body hl]
    omega
  · show LoopStep.entered _ ≤ max l.entered _
    rw [LoopStep.entered_body hl, LoopStep.entered_of_some hl]
    omega
  · show LoopStep.work _ ≤ l.work
    rw [LoopStep.work_body hl hn hspan, LoopStep.work_of_lt hl hn]
    omega

/-- A round of a loop: it moved, and was entered alone if more steps may run, or it stalled. -/
theorem Pace.round (hl : l.target = some n) (hn : l.completed < n) (hb : budget ≠ 0)
    (hspan : body.span = l.body.span) (hready : (Step.sequence l.body).Ready)
    (h : Pace (budget - 1) es stops (.sequence l.body) (.sequence body)) :
    (Moved budget es (.loop l) (.loop ({ l with body } : LoopStep Step).settle) ∧
      l.entered ≤ budget ∧
      (stops = false → ({ l with body } : LoopStep Step).settle.entered ≤ 1)) ∨
    (stops = true ∧ Stalled budget es (.loop l) (.loop ({ l with body } : LoopStep Step).settle)) := by
  have hbefore (h : (Step.sequence l.body).isDone = false →
      (Step.sequence l.body).entered ≤ budget - 1) : l.entered ≤ budget := by
    have := hready.before h
    have : l.body.entered ≤ budget - 1 := this
    rw [LoopStep.entered_of_some hl]
    omega
  rw [LoopStep.settle]
  by_cases hd : body.isDone = true
  · -- The body starts over, so the loop is entered alone; a body that stalled is not done.
    have hmoved : Moved budget es _ _ := .restart hl hn hb hspan
    have hone : LoopStep.entered { l with completed := l.completed + 1, body := body.reset } ≤ 1 :=
      Nat.le_of_eq (LoopStep.entered_restart hl)
    simp only [if_pos hd]
    rcases h with ⟨-, -, h⟩ | ⟨-, h, -⟩ | ⟨-, h⟩
    · exact .inl ⟨hmoved, hbefore h, fun _ => hone⟩
    · exact .inl ⟨hmoved, hbefore h, fun _ => hone⟩
    · exact absurd hd (by simpa [Step.isDone] using h.undone)
  · simp only [if_neg hd]
    rcases h with ⟨h, -⟩ | ⟨hmoved, h, hidle⟩ | ⟨hstop, hstalled⟩
    · exact absurd h hd
    · refine .inl ⟨hmoved.goOn hl hn hb hspan, hbefore h, fun hrun => ?_⟩
      have hentered : body.entered = 0 := hidle hrun
      rw [LoopStep.entered_body hl]
      omega
    · exact .inr ⟨hstop, hstalled.goOn hl hn hb hspan⟩

/-- More rounds after one in which the loop moved. -/
theorem Pace.after {s s₁ s₂ : Step} {budget' : Nat} (h : Moved budget es s s₁)
    (hbefore : s.entered ≤ budget) (hone : s₁.entered ≤ 1)
    (ho : s.only StepKind.isUntimed = true → s₁.only StepKind.isUntimed = true)
    (hlt : budget' < budget) (h' : Pace budget' es' stops s₁ s₂) :
    Pace budget (es ++ es') stops s s₂ := by
  have hkeeps (h' : s₂.counters = s₁.counters ∨ Ahead s₁.counters s₂.counters) :
      s₂.counters = s.counters ∨ Ahead s.counters s₂.counters := by
    rcases h' with h' | h'
    · rw [h']
      exact h.keeps
    · rcases h.keeps with hk | hk
      · exact .inr (hk ▸ h')
      · exact .inr (hk.trans h')
  have hacted (h' : s₂.counters = s₁.counters ∨ Ahead s₁.counters s₂.counters) :
      (∃ kind, .began kind ∈ es ++ es') ∨ Ahead s.counters s₂.counters := by
    rcases h.acted with ⟨kind, hk⟩ | ha
    · exact .inl ⟨kind, List.mem_append_left _ hk⟩
    · rcases h' with h' | h'
      · exact .inr (h' ▸ ha)
      · exact .inr (ha.trans h')
  -- Even if the later rounds stall, the loop has moved: at most one loop is entered, and there was
  -- an iteration for it.
  rcases h' with ⟨hd, hk, -⟩ | ⟨⟨-, hk, hin, hless⟩, -, hidle⟩ |
    ⟨hstop, ⟨-, hsame, -, -, hleast, hmore⟩⟩
  · exact .done hd (hkeeps hk) fun _ => hbefore
  · refine .moves ⟨hacted hk, hkeeps hk, by omega, fun hu => ?_⟩ (fun _ => hbefore) hidle
    exact Nat.lt_trans (hless (ho hu)) (h.less hu)
  · refine .moves ⟨hacted (.inl hsame), hkeeps (.inl hsame), by omega, fun hu => ?_⟩
      (fun _ => hbefore) fun hrun => ?_
    · exact Nat.lt_of_le_of_lt hmore (h.less hu)
    · rw [hstop] at hrun
      cases hrun

end Loops

/-! ## Turns -/

/-- A turn of a valid step that has no error moves it, or stalls. -/
def Contract.paces : Contract φ ρ α where
  sequence _ s t o := s.Valid → o.error = none → ∃ es, t.Paces (.sequence s) (o.map .sequence) es
  step _ s t o := s.Valid → o.error = none → ∃ es, t.Paces s o es
  rounds _ l t o := l.Valid → o.error = none → ∃ es, t.Paces (.loop l) (o.map .loop) es

/-- A loop that finds no iterations left. -/
theorem Turn.paces_exhaust {t : Turn φ ρ α} {l : LoopStep Step} {n : Nat} (hl : l.target = some n)
    (hn : l.completed < n) (hb : t.budget = 0) :
    t.Paces (.loop l) ⟨.loop l, t.exhaust, none⟩ [.exhausted] := by
  refine ⟨Turn.logs_log _ _, Nat.le_refl _, fun _ => rfl, .stalls rfl ⟨by simp, rfl, ?_, ?_, ?_, ?_⟩⟩
  · simpa [Step.isDone, LoopStep.isDone, hl] using hn
  · show t.budget < l.entered
    rw [LoopStep.entered_of_some hl]
    omega
  · exact Nat.le_max_left ..
  · exact Nat.le_refl _

/-- What a loop knows of a round that it has. -/
theorem Turn.Paces.round {t : Turn φ ρ α} {l : LoopStep Step} {n : Nat}
    {o : Outcome (Sequence Step) (Turn φ ρ α)} {es : List Event} (hl : l.target = some n)
    (hn : l.completed < n) (hb : t.budget ≠ 0) (hv : l.Valid) (hblank : o.step.blank = l.body.blank)
    (h : t.spend.Paces (.sequence l.body) (o.map .sequence) es) :
    t.Logs o.turn (.iterated :: es) ∧ o.turn.budget < t.budget ∧
      (((Step.loop l).only StepKind.isUntimed = true ∨ ∀ kind, .began kind ∉ es) →
        o.turn.removed = t.removed) ∧
      ((Moved t.budget (.iterated :: es) (.loop l)
          (.loop ({ l with body := o.step } : LoopStep Step).settle) ∧ l.entered ≤ t.budget ∧
        (o.turn.mustYield = false →
          ({ l with body := o.step } : LoopStep Step).settle.entered ≤ 1)) ∨
      (o.turn.mustYield = true ∧ Stalled t.budget (.iterated :: es) (.loop l)
          (.loop ({ l with body := o.step } : LoopStep Step).settle))) := by
  have hready := ((LoopStep.valid_iff.1 hv).entered n hl).2
  have hfewer : o.turn.budget ≤ t.budget - 1 := h.fewer
  refine ⟨(Turn.logs_log t .iterated).trans h.logs, by omega, fun hr => ?_, ?_⟩
  · exact h.removed (hr.imp_left LoopStep.only_body)
  · exact Pace.round hl hn hb (Sequence.span_congr hblank) hready (h.pace.events (by simp))

variable [RandomSource ρ] [BulletFactory φ α]

omit [RandomSource ρ] [BulletFactory φ α] in
theorem LoopStep.only_settle {l : LoopStep Step} {body : Sequence Step} {allowed : StepKind → Bool}
    (h : body.blank = l.body.blank) :
    (Step.loop ({ l with body } : LoopStep Step).settle).only allowed
      = (Step.loop l).only allowed := by
  have hbody : ({ l with body } : LoopStep Step).settle.body.blank = l.body.blank :=
    (LoopStep.blank_settle _).2.trans h
  rw [Step.only, Step.only, LoopStep.only_eq, LoopStep.only_eq, Sequence.only_congr hbody]

theorem Contract.sound_kept (stage : Stage) :
    ((keepsBlank (φ := φ) (ρ := ρ) (α := α)).and valid).Kept stage :=
  (keepsBlank_kept stage).and (valid_kept stage)

theorem Contract.paces_kept (stage : Stage) :
    ((keepsBlank.and valid).and (paces (φ := φ) (ρ := ρ) (α := α))).Kept stage where
  done hd := ⟨(sound_kept stage).done hd, fun _ _ => ⟨[], Turn.paces_of_done (s := .sequence _) hd⟩⟩
  scopeFails hd hr := ⟨(sound_kept stage).scopeFails hd hr, fun _ he => nomatch he⟩
  current {_ s t scope isNew _ _ o} hd hr hc ho := by
    refine ⟨(sound_kept stage).current hd hr hc ho.1, fun hs he => ?_⟩
    have hdraws := Turn.Draws.of_resolve hr
    have hs' := hs.withScope scope isNew
    have he : o.error = none := (Sequence.error_settle ..).symm.trans he
    obtain ⟨es, hp⟩ := ho.2 ((Sequence.valid_iff.1 hs').valid _ (List.mem_of_getElem? hc)) he
    obtain ⟨es, hp⟩ := (hp.settle hs' hc he).prepend_draws hdraws
    -- That was said of the sequence with its new scope, which counts the same as the one before.
    refine ⟨es, hp.congr (s.counters_withScope scope isNew).symm ?_ ?_ ?_ ?_⟩
    · intro h hd'
      have h : (s.withScope scope isNew).entered ≤ t.budget := by
        exact h ((s.isDone_withScope scope isNew).trans hd')
      rwa [s.entered_withScope] at h
    · show (s.withScope scope isNew).entered ≤ _
      rw [s.entered_withScope]
      exact Nat.le_max_left ..
    · exact Nat.le_of_eq (s.work_withScope scope isNew)
    · exact (s.only_withScope scope isNew).symm
  nested ho := ⟨(sound_kept stage).nested ho.1, ho.2⟩
  fire params f t := by
    refine ⟨(sound_kept stage).fire params f t, fun _ he => ?_⟩
    rcases f.logs_dispatch stage params t with ⟨_, _, _, h, -⟩ | ⟨_, _, hf, h, hl⟩ <;> rw [h] at he ⊢
    · cases he
    · exact hl.paces ⟨rfl, rfl⟩ ⟨rfl, rfl⟩ fun _ => ⟨by decide, hf⟩
  mutation params m t := by
    refine ⟨(sound_kept stage).mutation params m t, fun _ he => ?_⟩
    rcases m.logs_dispatch stage params t with ⟨_, _, h, -⟩ | ⟨_, _, _, -, h, hl⟩ <;> rw [h] at he ⊢
    · cases he
    · exact hl.paces ⟨rfl, rfl⟩ ⟨rfl, rfl⟩ nofun
  wait params w t := by
    refine ⟨(sound_kept stage).wait params w t, fun _ he => ?_⟩
    rcases w.logs_dispatch stage params t with ⟨_, _, h, -⟩ | ⟨_, _, _, -, h, hl⟩ <;> rw [h] at he ⊢
    · cases he
    · exact hl.paces ⟨rfl, rfl⟩ ⟨rfl, rfl⟩ nofun
  vanish params triggered t :=
    ⟨(sound_kept stage).vanish params triggered t, fun _ _ =>
      (Turn.logs_vanish t).paces ⟨rfl, rfl⟩ ⟨rfl, rfl⟩ nofun⟩
  countFails hl hr := ⟨(sound_kept stage).countFails hl hr, fun _ he => nomatch he⟩
  entered {_ l _ x _ _} hl hr ho := by
    refine ⟨(sound_kept stage).entered hl hr ho.1, fun hs he => ?_⟩
    have hs : l.Valid := hs
    have hdraws := Turn.Draws.of_eval hr
    obtain ⟨es, hp⟩ := ho.2 (hs.enter hl _) he
    obtain ⟨es, hp⟩ := hp.prepend_draws hdraws
    -- The loop is entered now and was not before: it had as much to do, and none entered in it.
    have hnone : l.entered = 0 := LoopStep.entered_of_none hl
    refine ⟨es, hp.congr ?_ (fun _ _ => ?_) ?_ (LoopStep.work_enter_le hl x.count_le) ?_⟩
    · show l.counters = LoopStep.counters _
      rw [LoopStep.counters_eq, LoopStep.counters_eq]
    · show l.entered ≤ _
      omega
    · have hbody : l.body.entered = 0 :=
        Step.Pristine.entered (s := .sequence l.body) ((LoopStep.valid_iff.1 hs).outside hl).2
      show LoopStep.entered _ ≤ _
      rw [LoopStep.entered_of_some (n := x.count.toNat) rfl, hbody]
      exact Nat.le_max_right ..
    · rw [Step.only, Step.only, LoopStep.only_eq, LoopStep.only_eq]
  resumed hl ho := ⟨(sound_kept stage).resumed hl ho.1, ho.2⟩
  ended {_ l _ _} hl hn := by
    refine ⟨(sound_kept stage).ended hl hn, fun _ _ => ⟨[], Turn.paces_of_done (s := .loop l) ?_⟩⟩
    simpa [Step.isDone, LoopStep.isDone, hl] using hn
  exhausted hl hn hb :=
    ⟨(sound_kept stage).exhausted hl hn hb, fun _ _ => ⟨_, Turn.paces_exhaust hl hn hb⟩⟩
  fails hl hn hb ho he := ⟨(sound_kept stage).fails hl hn hb ho.1 he, fun _ he => nomatch he⟩
  yields {_ l t n o} hl hn hb ho he hy := by
    refine ⟨(sound_kept stage).yields hl hn hb ho.1 he hy, fun hs _ => ?_⟩
    obtain ⟨es, hp⟩ := ho.2 (LoopStep.valid_iff.1 hs).body he
    obtain ⟨hlogs, hfewer, hremoved, hround⟩ := hp.round hl hn hb hs ho.1.1
    refine ⟨_, hlogs, Nat.le_of_lt hfewer, fun hr => hremoved (hr.imp_right fun h k hk => ?_), ?_⟩
    · exact h k (List.mem_cons_of_mem _ hk)
    · rcases hround with ⟨hmoved, hbefore, -⟩ | ⟨-, hstalled⟩
      · exact .moves hmoved (fun _ => hbefore) fun h => (Bool.false_ne_true (h.symm.trans hy)).elim
      · exact .stalls hy hstalled
  again {_ l t n o o'} hl hn hb ho he hy hr := by
    refine ⟨(sound_kept stage).again hl hn hb ho.1 he hy hr.1, fun hs he' => ?_⟩
    have hv := (LoopStep.valid_iff.1 hs).body
    obtain ⟨es, hp⟩ := ho.2 hv he
    obtain ⟨hlogs, hfewer, hremoved, hround⟩ := hp.round hl hn hb hs ho.1.1
    -- A round that stalled would have stopped the turn.
    obtain ⟨hmoved, hbefore, hone⟩ := hround.resolve_right fun h =>
      Bool.false_ne_true (hy.symm.trans h.1)
    obtain ⟨es', hp'⟩ := hr.2 (hs.settle hl hn (ho.1.2 hv).1) he'
    have honly : (Step.loop ({ l with body := o.step } : LoopStep Step).settle).only
        StepKind.isUntimed = (Step.loop l).only StepKind.isUntimed := LoopStep.only_settle ho.1.1
    have hpace := Pace.after hmoved hbefore (hone hy) (fun h => honly.trans h) hfewer hp'.pace
    refine ⟨_, hlogs.trans hp'.logs, Nat.le_trans hp'.fewer (Nat.le_of_lt hfewer), fun hr => ?_, hpace⟩
    rw [hp'.removed (hr.imp honly.trans fun h k hk => h k (List.mem_append_right _ hk)),
      hremoved (hr.imp_right fun h k hk => h k (List.mem_append_left _ (List.mem_cons_of_mem _ hk)))]

/-- A turn of a valid sequence that has no error moves it, or stalls. -/
theorem Sequence.advance_paces (stage : Stage) (params : Params) {s : Sequence Step} (hs : s.Valid)
    (t : Turn φ ρ α) (he : (s.advance stage params t).error = none) :
    ∃ es, t.Paces (.sequence s) ((s.advance stage params t).map .sequence) es :=
  ((Contract.paces_kept stage).advance params s t).2 hs he

end Barrage
