import Barrage.Host.Foundry
import Barrage.Proofs.Walk.Resume
import Barrage.Proofs.Yield.Pace
import Barrage.Turn.Passing

/-!
# How many calls a pattern takes

A pattern of fires, loops and actions is driven by calls of its host. Each call passes one fire or one loop,
or a nested action without steps, whatever the time between the calls.

* `Contract.waits`: only iterations can hold such a pattern up.
* `Sequence.Calls`: some calls that have no error and enough iterations, one after the other.
* `LoopStep.passes_dispatch`: a loop that was not entered makes all its passes in one turn.
* `calls_eq_turns`: a pattern is done after exactly as many calls as its action takes turns, and each loop in
  it makes all its passes in one of them.
-/

namespace Barrage

variable {φ ρ α σ : Type}

/-! ## Only iterations hold up untimed steps -/

/-- A turn of untimed steps that left no more steps to run and has no error ran out of iterations. -/
def Turn.Waits (t : Turn φ ρ α) (o : Outcome σ (Turn φ ρ α)) : Prop :=
  t.mustYield = false → o.error = none → o.turn.mustYield = true → .exhausted ∈ o.turn.journal.toList

/-- Only iterations hold up steps that take no time and leave their owner alone. -/
def Contract.waits : Contract φ ρ α where
  sequence _ s t o := s.only StepKind.isUntimed = true → t.Waits o
  step _ s t o := s.only StepKind.isUntimed = true → t.Waits o
  rounds _ l t o := l.body.only StepKind.isUntimed = true → t.Waits o

namespace Turn

variable {t t' : Turn φ ρ α} {o : Outcome σ (Turn φ ρ α)}

theorem waits_of_eq (step : σ) (error : Option StepError) : t.Waits ⟨step, t, error⟩ := by
  intro ht _ hy
  cases ht.symm.trans hy

theorem waits_of_error {e : StepError} (he : o.error = some e) : t.Waits o := by
  intro _ hok
  cases he.symm.trans hok

theorem Waits.congr {σ' : Type} {o' : Outcome σ' (Turn φ ρ α)} (h : t.Waits o) (ht : o'.turn = o.turn)
    (he : o'.error = o.error) : t.Waits o' := by
  unfold Waits at *
  rw [ht, he]
  exact h

theorem Waits.prepend (h : t'.Waits o) (hy : t'.mustYield = t.mustYield) : t.Waits o :=
  fun ht => h (hy.trans ht)

end Turn

variable [RandomSource ρ] [BulletFactory φ α]

theorem Contract.waits_kept (stage : Stage) :
    ((keepsBlank (φ := φ) (ρ := ρ) (α := α)).and waits).Kept stage where
  done hd := ⟨(keepsBlank_kept stage).done hd, fun _ => Turn.waits_of_eq _ _⟩
  scopeFails hd hr := ⟨(keepsBlank_kept stage).scopeFails hd hr, fun _ => Turn.waits_of_error rfl⟩
  current {_ s t scope isNew _ c _} hd hr hc ho := by
    refine ⟨(keepsBlank_kept stage).current hd hr hc ho.1, fun hs => ?_⟩
    have hblank := s.blank_withScope isNew (Turn.blank_resolve hr)
    have hall := Sequence.only_iff.1 ((Sequence.only_congr hblank).trans hs)
    have hstep := hall c (List.mem_of_getElem? hc)
    exact ((ho.2 hstep).prepend (Turn.Draws.of_resolve hr).mustYield).congr (Sequence.turn_settle ..)
      (Sequence.error_settle ..)
  nested ho := ⟨(keepsBlank_kept stage).nested ho.1, fun hs => (ho.2 hs).congr rfl rfl⟩
  fire params f t := by
    refine ⟨(keepsBlank_kept stage).fire params f t, fun _ => ?_⟩
    rcases f.logs_dispatch stage params t with ⟨_, _, _, h, -⟩ | ⟨_, t', -, h, hl⟩ <;> rw [h]
    · exact Turn.waits_of_error rfl
    · -- A fire leaves more steps to run if more could run before it.
      intro ht _ hy
      have hy : t'.mustYield = true := hy
      rw [hl.mustYield, ht] at hy
      cases hy
  -- The others are not untimed.
  mutation params m t := ⟨(keepsBlank_kept stage).mutation params m t, fun hs => by cases hs⟩
  wait params w t := ⟨(keepsBlank_kept stage).wait params w t, fun hs => by cases hs⟩
  vanish params triggered t := ⟨(keepsBlank_kept stage).vanish params triggered t, fun hs => by cases hs⟩
  countFails hl hr := ⟨(keepsBlank_kept stage).countFails hl hr, fun _ => Turn.waits_of_error rfl⟩
  entered {_ l _ _ _ _} hl hr ho := by
    refine ⟨(keepsBlank_kept stage).entered hl hr ho.1, fun hs => ?_⟩
    have hbody : l.body.only StepKind.isUntimed = true := LoopStep.only_body hs
    exact ((ho.2 hbody).prepend (Turn.Draws.of_eval hr).mustYield).congr rfl rfl
  resumed {_ l _ _ _} hl ho := by
    refine ⟨(keepsBlank_kept stage).resumed hl ho.1, fun hs => ?_⟩
    exact (ho.2 (LoopStep.only_body hs)).congr rfl rfl
  ended hl hn := ⟨(keepsBlank_kept stage).ended hl hn, fun _ => Turn.waits_of_eq _ _⟩
  exhausted hl hn hb :=
    ⟨(keepsBlank_kept stage).exhausted hl hn hb, fun _ _ _ _ => by simp [Turn.exhaust, Turn.log]⟩
  fails hl hn hb ho he := ⟨(keepsBlank_kept stage).fails hl hn hb ho.1 he, fun _ => Turn.waits_of_error rfl⟩
  yields hl hn hb ho he hy := by
    refine ⟨(keepsBlank_kept stage).yields hl hn hb ho.1 he hy, fun hs => ?_⟩
    exact ((ho.2 hs).prepend rfl).congr rfl he.symm
  again {_ l _ _ o _} hl hn hb ho he hy hr := by
    refine ⟨(keepsBlank_kept stage).again hl hn hb ho.1 he hy hr.1, fun hs _ => ?_⟩
    have hbody : ({ l with body := o.step } : LoopStep Step).settle.body.blank = l.body.blank :=
      (LoopStep.blank_settle _).2.trans ho.1
    exact hr.2 ((Sequence.only_congr hbody).trans hs) hy

/-- A turn of an untimed sequence that has no error and enough iterations leaves more steps to run. -/
theorem Sequence.mustYield_advance {stage : Stage} {params : Params} {s : Sequence Step} {t : Turn φ ρ α}
    (hs : s.only StepKind.isUntimed = true) (ht : t.mustYield = false)
    (he : (s.advance stage params t).error = none)
    (hj : .exhausted ∉ (s.advance stage params t).turn.journal.toList) :
    (s.advance stage params t).turn.mustYield = false := by
  rcases hy : (s.advance stage params t).turn.mustYield with _ | _
  · rfl
  · exact absurd (((Contract.waits_kept stage).advance params s t).2 hs ht he hy) hj

/-! ## The passes of a loop -/

namespace LoopStep

variable {stage : Stage} {params : Params} {l : LoopStep Step} {t : Turn φ ρ α}
variable {o : Outcome Step (Turn φ ρ α)}

/-- A loop that was not entered evaluates how often it runs. In a turn that was not held up it runs as
often. -/
theorem completed_dispatch (hl : l.target = none)
    (ho : (Step.loop l).dispatch (Sequence.advance stage) stage params t = o) (he : o.error = none)
    (hy : o.turn.mustYield = false) :
    ∃ x source l', (l.times.eval stage.frame.rank params).run t.source = (.ok x, source) ∧
      o.step = .loop l' ∧ l'.target = some x.count.toNat ∧
      l'.completed = max l.completed x.count.toNat := by
  subst ho
  have hrun := Turn.run_eval stage params t.owner l.times t
  rw [Step.dispatch, drain, hl] at he hy ⊢
  rcases hr : t.eval stage params l.times with ⟨e | x, t₁⟩ <;> rw [hr] at hrun
  · rw [hr] at he
    cases he
  · rw [hr] at he hy
    have hrounds := (Contract.passes_kept stage).iterate (Sequence.advance_tame stage)
      (fun params s t _ => (Contract.passes_kept stage).advance params s t) params
      { l with target := some x.count.toNat } t₁ rfl rfl (Nat.le_refl _)
    obtain ⟨htarget, hcompleted⟩ := hrounds he hy _ rfl
    exact ⟨x, t₁.source, _, hrun, rfl, htarget, hcompleted⟩

/-- In a turn that was not held up a loop that was not entered yet is walked. -/
theorem run_walk_dispatch (hblank : (Step.loop l).blank = .loop l)
    (hl : (Step.loop l).only StepKind.isSteady = true) (ht : t.mustYield = false)
    (ho : (Step.loop l).dispatch (Sequence.advance stage) stage params t = o) (he : o.error = none)
    (hy : o.turn.mustYield = false) (hd : o.step.isDone = true) :
    (l.walk (stage.scene t.owner) params).run (t.world []) = (.ok (), o.turn.world []) := by
  have hres := ((Contract.resumes_kept stage t.owner []).dispatch (Sequence.advance_tame stage) params
    (.loop l) t fun params s t' _ => (Contract.resumes_kept stage t.owner []).advance params s t').2
    hl rfl (Bool.or_eq_false_iff.1 ht).2
  rw [ho, Step.residue_of_blank hblank, Outcome.left, he] at hres
  simp only [(Bool.or_eq_false_iff.1 hy).2, hd, if_true] at hres
  exact hres.2

/-- A loop that was not entered yet makes all its passes in a turn that was not held up. Each of them is a walk
of its body. -/
theorem passes_dispatch (hblank : (Step.loop l).blank = .loop l)
    (hl : (Step.loop l).only StepKind.isSteady = true) (ht : t.mustYield = false)
    (ho : (Step.loop l).dispatch (Sequence.advance stage) stage params t = o) (he : o.error = none)
    (hy : o.turn.mustYield = false) :
    ∃ x source l' passes, (l.times.eval stage.frame.rank params).run t.source = (.ok x, source) ∧
      o.step = .loop l' ∧ l'.target = some x.count.toNat ∧ l'.completed = x.count.toNat ∧
      passes.length = x.count.toNat ∧
      (l.body.walk (stage.scene t.owner) params : Walk φ ρ α Unit).Passes { t.world [] with source } passes
        (o.turn.world []) := by
  obtain ⟨htarget, hcompleted⟩ : l.target = none ∧ l.completed = 0 := by
    have h := Step.loop.inj ((Step.blank_loop l).symm.trans hblank)
    exact ⟨(congrArg LoopStep.target h).symm, (congrArg LoopStep.completed h).symm⟩
  obtain ⟨x, source, l', heval, hstep, htarget', hcompleted'⟩ := completed_dispatch htarget ho he hy
  rw [hcompleted, Nat.zero_max] at hcompleted'
  have hd : o.step.isDone = true := by
    rw [hstep]
    show l'.isDone = true
    rw [isDone, htarget', hcompleted']
    exact decide_eq_true (Nat.le_refl _)
  have hwalk := run_walk_dispatch hblank hl ht ho he hy hd
  have hdraw : (Walk.draw ((stage.scene t.owner).value params l.times)).run (t.world [])
      = (.ok x, { t.world [] with source }) := Walk.draw_ok heval
  rw [walk_eq, run_ok hdraw] at hwalk
  obtain ⟨passes, hlength, hpasses⟩ :=
    Walk.passes_of_times (Step.grows_walk (.sequence l.body) params) hwalk
  exact ⟨x, source, l', passes, heval, hstep, htarget', hcompleted', hlength, hpasses⟩

end LoopStep

/-! ## Calls -/

/-- A turn that has no error and in which no loop had to wait for iterations. -/
structure Outcome.Succeeds (o : Outcome σ (Turn φ ρ α)) : Prop where
  ok : o.error = none
  enough : .exhausted ∉ o.turn.journal.toList

omit [RandomSource ρ] [BulletFactory φ α] in
theorem Outcome.succeeds_iff {o : Outcome σ (Turn φ ρ α)} :
    o.Succeeds ↔ o.error = none ∧ .exhausted ∉ o.turn.journal.toList :=
  ⟨fun h => ⟨h.ok, h.enough⟩, fun h => ⟨h.1, h.2⟩⟩

instance (o : Outcome σ (Turn φ ρ α)) : Decidable o.Succeeds := decidable_of_iff' _ Outcome.succeeds_iff

namespace Sequence

/-- A number of calls that succeed, one after the other, until the sequence is done. Each call may come from
another host, at another time and with other iterations. -/
inductive Calls (b : Builder) (params : Params) (s : Sequence Step) : Nat → Sequence Step → Prop where
  | zero : Calls b params s 0 s
  | succ {φ ρ α : Type} [RandomSource ρ] [BulletFactory φ α] {n s'} (before : Calls b params s n s')
    (hd : s'.isDone = false) (frame : Frame) (owner : Bullet α) (factory : φ) (source : ρ) (budget : Nat)
    (last : LastFired)
    (h : (s'.advance ⟨b, frame⟩ params (Turn.start owner factory source budget last)).Succeeds) :
    Calls b params s (n + 1)
      (s'.advance ⟨b, frame⟩ params (Turn.start owner factory source budget last)).step

variable {b : Builder} {params : Params} {s s' : Sequence Step} {n : Nat}

/-- Each call leaves one turn fewer due. -/
theorem Calls.due (h : s.Calls b params n s') (hs : s.only StepKind.isUntimed = true)
    (htidy : (Step.sequence s).Tidy) :
    s'.only StepKind.isUntimed = true ∧ n + s'.due = s.due ∧ (Step.sequence s').Tidy := by
  induction h with
  | zero => exact ⟨hs, Nat.zero_add _, htidy⟩
  | succ _ hd _ _ _ _ _ _ h ih =>
    obtain ⟨honly, hdue, htidy⟩ := ih
    have hy := mustYield_advance honly rfl h.ok h.enough
    refine ⟨(only_congr (blank_advance ..)).trans honly, ?_, tidy_advance htidy h.ok hy⟩
    have := due_advance hd h.ok hy
    omega

omit [BulletFactory φ α] in
/-- A step that a turn of a sequence comes to is of a kind that the sequence has. -/
theorem Reaches.only {stage : Stage} {params' : Params} {c : Step} {t t' : Turn φ ρ α}
    {allowed : StepKind → Bool} (h : s.Reaches stage params t params' c t')
    (hs : s.only allowed = true) : c.only allowed = true := by
  have hcurrent {s : Sequence Step} {params : Params} {t t₁ : Turn φ ρ α} {scope : Scope} {isNew : Bool}
      {c : Step} (hr : t.resolve stage params s.scope = (.ok (scope, isNew), t₁))
      (hc : (s.withScope scope isNew).current? = some c) (hs : s.only allowed = true) :
      c.only allowed = true := by
    have hblank := s.blank_withScope isNew (Turn.blank_resolve hr)
    exact only_iff.1 ((only_congr hblank).trans hs) c (List.mem_of_getElem? hc)
  induction h with
  | here _ hr hc _ => exact hcurrent hr hc hs
  | nested _ hr hc _ ih => exact ih (hcurrent hr hc hs)

end Sequence

/-- A pattern of fires, loops and nested actions is done after exactly as many calls as its action takes turns:
one for each fire and each loop, however often the loop runs, and at least one for each nested action. The time
between the calls does not matter. A loop was not entered before the call that comes to it, and in this call it
makes all its passes in order, each of which is a walk of its body. -/
theorem calls_eq_turns {b : Builder} {a : Action Node} {params : Params} {s s' : Sequence Step} {n : Nat}
    (hs : b.action a = .ok s) (ho : s.only StepKind.isUntimed = true) (h : s.Calls b params n s') :
    n + s'.due = b.turns a ∧ (s'.isDone = true ↔ n = b.turns a) ∧
    ∀ (frame : Frame) (owner : Bullet α) (factory : φ) (source : ρ) (budget : Nat) (last : LastFired),
      let stage : Stage := ⟨b, frame⟩
      let t := Turn.start owner factory source budget last
      let o := s'.advance stage params t
      o.Succeeds → ∀ params' l t', s'.Reaches stage params t params' (.loop l) t' →
        ∃ x source' l' passes, l.target = none ∧
          (l.times.eval frame.rank params').run t'.source = (.ok x, source') ∧
          ((Step.loop l).dispatch (Sequence.advance stage) stage params' t').step = .loop l' ∧
          l'.target = some x.count.toNat ∧ l'.completed = x.count.toNat ∧
          passes.length = x.count.toNat ∧
          (l.body.walk (stage.scene owner) params' : Walk φ ρ α Unit).Passes
            { t'.world [] with source := source' } passes (o.turn.world []) ∧
          o.turn.spawned.toList = passes.flatten := by
  have hblank := Builder.blank_action hs
  have htidy : (Step.sequence s).Tidy := .fresh (congrArg Step.sequence hblank)
  obtain ⟨honly, hdue, htidy'⟩ := h.due ho htidy
  rw [Sequence.due_of_blank hblank, Builder.cost_action hs] at hdue
  refine ⟨hdue, ?_, fun frame owner factory source budget last => ?_⟩
  · rw [← Sequence.due_eq_zero_iff]
    omega
  intro stage t o hok params' l t' hreach
  -- The turn is not held up, and the loop is as it was built, so what is left of it is its walk.
  have hy := Sequence.mustYield_advance honly rfl hok.ok hok.enough
  obtain ⟨hturn, herror⟩ := hreach.advance
  have hsteady : (Step.loop l).only StepKind.isSteady = true :=
    Step.only_mono (fun kind hk => by cases kind <;> first | rfl | cases hk) (hreach.only honly)
  obtain ⟨x, source', l', passes, heval, hstep, htarget, hcompleted, hlength, hpasses⟩ :=
    LoopStep.passes_dispatch (hreach.blank htidy') hsteady (hreach.draws.mustYield) rfl
      (herror.symm.trans hok.ok) (hturn ▸ hy)
  rw [hreach.draws.owner, ← hturn] at hpasses
  refine ⟨x, source', l', passes, ?_, heval, hstep, htarget, hcompleted, hlength, hpasses, ?_⟩
  · have hb := Step.loop.inj ((Step.blank_loop l).symm.trans (hreach.blank htidy'))
    exact (congrArg LoopStep.target hb).symm
  · have hspawned : t'.spawned = #[] := hreach.draws.spawned
    have hmade : [] ++ o.turn.spawned.toList = [] ++ t'.spawned.toList ++ passes.flatten := hpasses.made
    simpa [hspawned] using hmade

/-- A shot, an action without nodes, and two times a shot and another loop. -/
def loopsAndActions : Action Node :=
  let shot : Node := .fire ⟨none, none, none, .inline ⟨none, none, none, []⟩⟩
  ⟨none, [shot, .action ⟨none, []⟩,
    .loop (.number 2) (.action ⟨none, [shot, .loop (.param 1) (.action ⟨none, [shot]⟩)]⟩)]⟩

/-- A call some time after the last one. -/
def callAfter (delta : Scalar) (s : Sequence Step) :
    Outcome (Sequence Step) (Turn Foundry Tape (Option String)) :=
  s.advance ⟨.bare ⟨1, 64, 1⟩, ⟨delta, ⟨0, -100⟩, 0⟩⟩ [3]
    (Turn.start LabelledBullet.first .plain ⟨[], 0⟩ 20 .nothing)

set_option maxRecDepth 10000 in
/-- A shot, an action without nodes and a loop take three calls, whatever the time between them. The loop makes
two passes in the last one, with eight bullets. -/
theorem calls_eq_turns_loopsAndActions :
    ∃ s s₂ : Sequence Step, (Builder.bare ⟨1, 64, 1⟩).action loopsAndActions = .ok s ∧
      (Builder.bare ⟨1, 64, 1⟩).turns loopsAndActions = 3 ∧
      s.Calls (.bare ⟨1, 64, 1⟩) [3] 2 s₂ ∧ s₂.due = 1 ∧ s₂.isDone = false ∧
      (callAfter 16 s₂).step.isDone = true ∧ (callAfter 16 s₂).turn.spawned.size = 8 ∧
      ∃ passes : List (List (Spawn (Option String))), passes.length = 2 ∧
        (callAfter 16 s₂).turn.spawned.toList = passes.flatten := by
  obtain ⟨s, hs⟩ : ∃ s, (Builder.bare ⟨1, 64, 1⟩).action loopsAndActions = .ok s := ⟨_, rfl⟩
  have hcalls : s.only StepKind.isUntimed = true ∧ s.isDone = false ∧ (callAfter 0 s).Succeeds ∧
      (callAfter 0 s).step.isDone = false ∧ (callAfter 1 (callAfter 0 s).step).Succeeds := by
    cases hs
    decide
  obtain ⟨s₂, hs₂, ⟨hd, hok, hdone, hsize⟩, l, hscope, hl, htimes⟩ : ∃ s₂,
      (callAfter 1 (callAfter 0 s).step).step = s₂ ∧
      (s₂.isDone = false ∧ (callAfter 16 s₂).Succeeds ∧ (callAfter 16 s₂).step.isDone = true ∧
        (callAfter 16 s₂).turn.spawned.size = 8) ∧
      ∃ l, s₂.scope = .shared ∧ s₂.current? = some (.loop l) ∧ l.times = .number 2 := by
    cases hs
    exact ⟨_, rfl, by decide, _, rfl, rfl, rfl⟩
  obtain ⟨honly, hd₀, hok₀, hd₁, hok₁⟩ := hcalls
  have h₂ : s.Calls (.bare ⟨1, 64, 1⟩) [3] 2 s₂ :=
    hs₂ ▸ .succ (.succ .zero hd₀ _ _ _ _ _ _ hok₀) hd₁ _ _ _ _ _ _ hok₁
  have hturns : (Builder.bare ⟨1, 64, 1⟩).turns loopsAndActions = 3 := by decide
  obtain ⟨hdue, -, hloop⟩ := calls_eq_turns (φ := Foundry) (ρ := Tape) (α := Option String) hs honly h₂
  have hcurrent : (s₂.withScope .shared false).current? = some (.loop l) := hl
  have hreach : s₂.Reaches ⟨.bare ⟨1, 64, 1⟩, ⟨16, ⟨0, -100⟩, 0⟩⟩ [3]
      (Turn.start LabelledBullet.first Foundry.plain (⟨[], 0⟩ : Tape) 20 .nothing) [3] (.loop l) _ :=
    .here hd (by rw [hscope]; rfl) hcurrent (fun h => by cases h)
  obtain ⟨x, _, -, passes, -, heval, -, -, -, hlength, -, hspawned⟩ := hloop _ _ _ _ _ _ hok _ _ _ hreach
  rw [htimes] at heval
  cases heval
  exact ⟨s, s₂, hs, hturns, h₂, by omega, hd, hdone, hsize, passes, hlength, hspawned⟩

end Barrage
