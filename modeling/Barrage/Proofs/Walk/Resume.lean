import Barrage.Proofs.Reset.Alike
import Barrage.Step.Kinds
import Barrage.Walk.Residue
import Barrage.Walk.Turn

/-!
# A turn resumes the walk

* `Outcome.left`: what is left of a walk after a turn.
* `Contract.resumes`: what is left before a turn is what the turn does and what is left after it.
* `Sequence.residue_advance`: this holds of every turn of a sequence that does not steer its owner.
-/

namespace Barrage

variable {φ ρ α σ : Type}

/-- Every kind of step but those that write the owner. -/
def StepKind.isSteady : StepKind → Bool
  | mutation => false
  | sequence | loop | fire | wait | vanish => true

/-- What is left of a walk after a turn: nothing if it failed or removed the owner, else the residue
of the step. -/
def Outcome.left (o : Outcome σ (Turn φ ρ α)) (made : List (Spawn α))
    (residue : σ → Walk φ ρ α Unit) : Except Halt Unit × World φ ρ α :=
  match o.error with
  | some e => (.error (.failed e), o.turn.world made)
  | none =>
    if o.turn.removed then (.error .vanished, o.turn.world made)
    else (residue o.step).run (o.turn.world made)

theorem Outcome.left_of_stays (step : σ) {t : Turn φ ρ α} (h : t.removed = false)
    (made : List (Spawn α)) (residue : σ → Walk φ ρ α Unit) :
    (⟨step, t, none⟩ : Outcome σ (Turn φ ρ α)).left made residue
      = (residue step).run (t.world made) := by
  simp [left, h]

theorem Outcome.left_of_removed (step : σ) {t : Turn φ ρ α} (h : t.removed = true)
    (made : List (Spawn α)) (residue : σ → Walk φ ρ α Unit) :
    (⟨step, t, none⟩ : Outcome σ (Turn φ ρ α)).left made residue
      = (.error .vanished, t.world made) := by
  simp [left, h]

variable [RandomSource ρ]

/-! ## Scopes -/

theorem Turn.run_enter_error {stage : Stage} {outer : Params} {scope : Scope} {t t' : Turn φ ρ α}
    {e : EvalError} (h : t.resolve stage outer scope = (.error e, t')) (owner : Bullet α)
    (made : List (Spawn α)) :
    (scope.enter (stage.scene owner) false outer : Walk φ ρ α _).run (t.world made)
      = (.error (.failed (.evaluation e)), t'.world made) := by
  rcases scope with _ | ⟨args, values, _ | _⟩
  · cases h
  · rw [resolve] at h
    have hrun := run_evalAll stage outer owner args t
    have hd := draws_evalAll stage outer args t
    rcases hr : t.evalAll stage outer args with ⟨e' | xs, t₁⟩ <;> rw [hr] at h hrun hd <;> cases h
    exact run_error (walk_draw_error hd hrun made)
  · cases h

theorem Turn.run_enter_ok {stage : Stage} {outer : Params} {scope scope' : Scope} {isNew : Bool}
    {t t' : Turn φ ρ α} (h : t.resolve stage outer scope = (.ok (scope', isNew), t'))
    (owner : Bullet α) (made : List (Spawn α)) :
    (scope.enter (stage.scene owner) false outer : Walk φ ρ α _).run (t.world made)
      = (.ok (scope'.params outer, isNew), t'.world made) := by
  rcases scope with _ | ⟨args, values, _ | _⟩
  · cases h
    rfl
  · rw [resolve] at h
    have hrun := run_evalAll stage outer owner args t
    have hd := draws_evalAll stage outer args t
    rcases hr : t.evalAll stage outer args with ⟨e' | xs, t₁⟩ <;> rw [hr] at h hrun hd <;> cases h
    rw [Scope.enter]
    exact run_ok (walk_draw_ok hd hrun made)
  · cases h
    rfl

/-- A scope that was evaluated is entered without evaluating it again. -/
theorem Scope.enter_resolved {scene : Scene α} {stage : Stage} {outer : Params}
    {scope scope' : Scope} {isNew : Bool} {t t' : Turn φ ρ α}
    (h : t.resolve stage outer scope = (.ok (scope', isNew), t')) :
    (scope'.enter scene false outer : Walk φ ρ α _) = pure (scope'.params outer, false) := by
  rcases scope with _ | ⟨args, values, _ | _⟩
  · cases h
    rfl
  · rw [Turn.resolve] at h
    rcases hr : t.evalAll stage outer args with ⟨e' | xs, t₁⟩ <;> rw [hr] at h <;> cases h
    rfl
  · cases h
    rfl

variable [BulletFactory φ α]

/-! ## The contract -/

/-- What is left before a turn is what the turn does and what is left after it. -/
def Contract.resumes (stage : Stage) (owner : Bullet α) (made : List (Spawn α)) :
    Contract φ ρ α where
  sequence params s t o := o.step.blank = s.blank ∧
    (s.only StepKind.isSteady = true → t.owner = owner → t.removed = false →
      o.turn.owner = owner ∧
        (s.residue (stage.scene owner) false params).run (t.world made)
          = o.left made fun s => s.residue (stage.scene owner) false params)
  step params s t o := o.step.blank = s.blank ∧
    (s.only StepKind.isSteady = true → t.owner = owner → t.removed = false →
      o.turn.owner = owner ∧
        (s.residue (stage.scene owner) false params).run (t.world made)
          = o.left made fun s =>
              if s.isDone then pure () else s.residue (stage.scene owner) false params)
  rounds params l t o := (o.step.times = l.times ∧ o.step.body.blank = l.body.blank) ∧
    (l.body.only StepKind.isSteady = true → t.owner = owner → t.removed = false →
      o.turn.owner = owner ∧
        (l.residue (stage.scene owner) false params).run (t.world made)
          = o.left made fun l => l.residue (stage.scene owner) false params)

theorem Sequence.residue_of_isDone {scene : Scene α} {s : Sequence Step} (h : s.isDone = true)
    (isNew : Bool) (params : Params) :
    (s.residue scene isNew params : Walk φ ρ α Unit) = pure () := by
  rw [residue_eq, if_pos h]

/-- What is left of a sequence whose scope was evaluated. -/
theorem Sequence.residue_of_enter {scene : Scene α} {s : Sequence Step} {params values : Params}
    (h : (s.scope.enter scene false params : Walk φ ρ α _) = pure (values, false)) :
    (s.residue scene false params : Walk φ ρ α Unit)
      = Step.residueFrom scene s.children s.cursor false values := by
  rw [residue_eq]
  split
  · next hd => rw [Step.residueFrom_of_le (by simpa [isDone] using hd)]
  · rw [h, pure_bind]

/-- New parameters make what is below a sequence be evaluated again. -/
theorem Sequence.residueFrom_withScope {scene : Scene α} (s : Sequence Step) (scope : Scope)
    (isNew : Bool) (n : Nat) (values : Params) :
    (Step.residueFrom scene (s.withScope scope isNew).children n false values : Walk φ ρ α Unit)
      = Step.residueFrom scene s.children n isNew values := by
  cases isNew
  · rfl
  · simp only [withScope, Step.expireAll_eq_map, if_true]
    exact Step.residueFrom_map (fun c _ => c.residue_expire) n values

theorem Sequence.run_settle {stage : Stage} {owner : Bullet α} {made : List (Spawn α)}
    {params : Params} {s : Sequence Step} {t t₁ : Turn φ ρ α} {scope : Scope} {isNew : Bool}
    {step : Step} {o : Outcome Step (Turn φ ρ α)} (hd : s.isDone = false)
    (hr : t.resolve stage params s.scope = (.ok (scope, isNew), t₁))
    (hc : (s.withScope scope isNew).current? = some step)
    (ho : (step.residue (stage.scene owner) false (scope.params params)).run (t₁.world made)
      = o.left made fun s =>
          if s.isDone then pure ()
          else s.residue (stage.scene owner) false (scope.params params)) :
    (s.residue (stage.scene owner) false params).run (t.world made)
      = ((s.withScope scope isNew).settle o).left made fun s =>
          s.residue (stage.scene owner) false params := by
  have henter : (scope.enter (stage.scene owner) false params : Walk φ ρ α _)
      = pure (scope.params params, false) := Scope.enter_resolved hr
  rw [residue_eq, if_neg (by simp [hd]), run_ok (Turn.run_enter_ok hr owner made)]
  simp only
  -- From here on the scope is that of the sequence after the turn: entering it costs nothing.
  rw [← residueFrom_withScope s scope isNew]
  have hcursor : s.cursor = (s.withScope scope isNew).cursor := rfl
  have hscope : (s.withScope scope isNew).scope = scope := rfl
  rw [hcursor]
  generalize s.withScope scope isNew = s' at hc hscope
  rw [Step.residueFrom_of_getElem? hc]
  obtain ⟨step', turn, _ | e⟩ := o
  · rcases hv : turn.removed with _ | _
    · simp only [Outcome.left, hv, Bool.false_eq_true, if_false] at ho
      rcases hdone : step'.isDone with _ | _
      · -- The step goes on: it is still the one under the cursor.
        rw [hdone, if_neg Bool.false_ne_true] at ho
        have hget : (s'.children.set s'.cursor step')[s'.cursor]? = some step' := by
          have := (List.getElem?_eq_some_iff.1 hc).1
          simp [this]
        have hsettle : s'.settle ⟨step', turn, none⟩
            = ⟨{ s' with children := s'.children.set s'.cursor step' }, turn, none⟩ := by
          simp [settle, hdone]
        rw [hsettle]
        simp only [Outcome.left, hv, Bool.false_eq_true, if_false]
        rw [residue_of_enter (by simpa only [hscope] using henter), run_congr ho,
          Step.residueFrom_of_getElem? hget, Step.residueFrom_set_succ]
      · -- The step is done: the cursor has passed it.
        rw [hdone, if_pos rfl] at ho
        have hsettle : s'.settle ⟨step', turn, none⟩
            = ⟨{ s' with children := s'.children.set s'.cursor step', cursor := s'.cursor + 1 },
                turn, none⟩ := by
          simp [settle, hdone]
        rw [hsettle]
        simp only [Outcome.left, hv, Bool.false_eq_true, if_false]
        rw [residue_of_enter (by simpa only [hscope] using henter), run_ok ho,
          Step.residueFrom_set_succ]
    · -- A vanish cuts off the steps that follow, as an error does.
      simp only [Outcome.left, hv, if_true] at ho
      rw [run_error ho]
      simp [Outcome.left, settle, hv]
  · rw [run_error ho]
    rfl

/-! ## Loops -/

theorem LoopStep.residue_of_isDone {scene : Scene α} {l : LoopStep Step} (h : l.isDone = true)
    (isNew : Bool) (params : Params) :
    (l.residue scene isNew params : Walk φ ρ α Unit) = pure () := by
  rcases hl : l.target with _ | n
  · simp [isDone, hl] at h
  · have hn : n - l.completed = 0 := by
      simp only [isDone, hl, decide_eq_true_eq] at h
      omega
    rw [residue_of_target hl, hn]
    rfl

/-- What is left before a round is what is left after it. -/
theorem LoopStep.run_round {scene : Scene α} {params : Params} {l : LoopStep Step} {n : Nat}
    {body : Sequence Step} {w w' : World φ ρ α} (hl : l.target = some n) (hn : l.completed < n)
    (hblank : body.blank = l.body.blank)
    (ho : (l.body.residue scene false params).run w = (body.residue scene false params).run w') :
    (l.residue scene false params).run w
      = (({ l with body } : LoopStep Step).settle.residue scene false params).run w' := by
  obtain ⟨k, rfl⟩ : ∃ k, n = l.completed + 1 + k := ⟨n - l.completed - 1, by omega⟩
  have hwalk : (body.walk scene params : Walk φ ρ α Unit) = l.body.walk scene params :=
    Sequence.walk_congr hblank params
  rw [residue_of_target hl, show l.completed + 1 + k - l.completed = k + 1 by omega, Walk.rounds,
    run_congr ho]
  rcases hd : body.isDone with _ | _
  · -- The round goes on, and none is counted.
    have hs : ({ l with body } : LoopStep Step).settle = { l with body } := by
      simp [settle, hd]
    rw [hs, residue_of_target (l := { l with body }) hl, hwalk,
      show l.completed + 1 + k - l.completed = k + 1 by omega, Walk.rounds]
  · -- The body was at its end, so what is left is all of the rounds to come.
    have hs : ({ l with body } : LoopStep Step).settle
        = { l with completed := l.completed + 1, body := body.reset } := by
      simp [settle, hd]
    have hreset : (body.reset.residue scene false params : Walk φ ρ α Unit)
        = l.body.walk scene params := by
      rw [← hwalk]
      exact Step.residue_reset (.sequence body) false params
    have hwalk' : (body.reset.walk scene params : Walk φ ρ α Unit) = l.body.walk scene params := by
      rw [Sequence.walk_congr body.blank_reset, hwalk]
    rw [hs, residue_of_target (l := { l with completed := l.completed + 1, body := body.reset }) hl]
    simp only [hreset, hwalk', Walk.rounds_self, Nat.add_sub_cancel_left]
    rw [Sequence.residue_of_isDone hd, pure_bind]

/-! ## Leaves -/

theorem FireStep.run_dispatch (stage : Stage) {owner : Bullet α} (made : List (Spawn α))
    (params : Params) (f : FireStep) {t : Turn φ ρ α} (ht : t.owner = owner)
    (hv : t.removed = false) :
    (f.dispatch stage params t).turn.owner = owner ∧
      ((Step.fire f).residue (stage.scene owner) false params).run (t.world made)
        = ((f.dispatch stage params t).map Step.fire).left made fun s =>
            if s.isDone then pure () else s.residue (stage.scene owner) false params := by
  subst ht
  have hlog : t.world made = (t.log (.began .fire)).world made := rfl
  rw [Step.residue, hlog, dispatch]
  have hd₁ := Turn.draws_resolve stage params f.scope (t.log (.began .fire))
  rcases hr : (t.log (.began .fire)).resolve stage params f.scope with ⟨e | ⟨scope, isNew⟩, t₁⟩ <;>
    rw [hr] at hd₁
  · exact ⟨hd₁.owner, run_error (Turn.run_enter_error hr t.owner made)⟩
  have ho₁ : t₁.owner = t.owner := hd₁.owner
  have hv₁ : t₁.removed = t.removed := hd₁.removed
  rw [run_ok (Turn.run_enter_ok hr t.owner made)]
  -- The walk evaluates the request as the turn does: the owner is the same until then.
  have hrun := Turn.run_request stage (scope.params params) { f with scope } t₁
  have hd₂ := Turn.draws_request stage (scope.params params) { f with scope } t₁
  simp only [Scene.run_shoot]
  rcases hr₂ : t₁.request stage (scope.params params) { f with scope } with ⟨e | r, t₂⟩ <;>
    rw [hr₂, ho₁] at hrun <;> rw [hr₂] at hd₂
  · exact ⟨hd₂.owner.trans ho₁, run_error (Turn.walk_draw_error hd₂ hrun made)⟩
  · have ho₂ : t₂.owner = t.owner := hd₂.owner.trans ho₁
    have hv₂ : t₂.removed = false := hd₂.removed.trans (hv₁.trans hv)
    have hcreate := Turn.run_create stage f.definition r t₂ made
    rw [ho₂] at hcreate
    have hdraw := run_ok (f := (stage.scene t.owner).create f.definition)
      (Turn.walk_draw_ok hd₂ hrun made)
    let t₃ := (t₂.make stage f.definition r).leave .fire false none
    have hv₃ : t₃.removed = false := hv₂
    refine ⟨ho₂, hdraw.trans (hcreate.trans ?_)⟩
    exact (Outcome.left_of_stays (Step.fire { f with scope, fired := true }) hv₃ made fun s =>
      if s.isDone then pure () else s.residue (stage.scene t.owner) false params).symm

theorem WaitStep.run_dispatch (stage : Stage) {owner : Bullet α} (made : List (Spawn α))
    (params : Params) (w : WaitStep) {t : Turn φ ρ α} (ht : t.owner = owner)
    (hv : t.removed = false) :
    (w.dispatch stage params t).turn.owner = owner ∧
      ((Step.wait w).residue (stage.scene owner) false params).run (t.world made)
        = ((w.dispatch stage params t).map Step.wait).left made fun s =>
            if s.isDone then pure () else s.residue (stage.scene owner) false params := by
  subst ht
  have hlog : t.world made = (t.log (.began .wait)).world made := rfl
  rw [hlog]
  -- The walk skips the time and draws what the duration needs, if it was not evaluated before.
  rcases w.dispatch_cases stage params t with ⟨e, t', hp, hd, h⟩ | ⟨d, t', w', hp, hd, hw, h⟩ <;>
    rw [h]
  · refine ⟨hd.owner, ?_⟩
    rcases hw : w.duration with _ | d
    · rw [Turn.pauseFor, hw] at hp
      simp only at hp
      rw [Step.residue, hw]
      exact run_error (Turn.walk_eval_error hp t.owner made)
    · rw [Turn.pauseFor, hw] at hp
      cases hp
  · have hv' : t'.removed = false := hd.removed.trans hv
    have hrest : (if (Step.wait w').isDone then pure ()
        else (Step.wait w').residue (stage.scene t.owner) false params : Walk φ ρ α Unit)
          = pure () := by
      rw [hw]
      split <;> rfl
    let t₁ := t'.leave .wait (!w'.isDone) (some ⟨w.elapsed, d⟩)
    have hv₁ : t₁.removed = false := hv'
    have hleft := Outcome.left_of_stays (Step.wait w') hv₁ made fun s =>
      if s.isDone then pure () else s.residue (stage.scene t.owner) false params
    rw [hrest] at hleft
    refine ⟨hd.owner, Eq.trans ?_ hleft.symm⟩
    rcases hl : w.duration with _ | d'
    · rw [Turn.pauseFor, hl] at hp
      simp only at hp
      rw [Step.residue, hl]
      exact run_ok (Turn.walk_eval_ok hp t.owner made)
    · rw [Turn.pauseFor, hl] at hp
      cases hp
      rw [Step.residue, hl]
      rfl

/-! ## Every turn -/

/-- What is left after a turn, if what is left of a step that is done is nothing anyway. -/
theorem Outcome.left_map {scene : Scene α} {params : Params} {f : σ → Step}
    (h : ∀ x, (f x).isDone = true →
      ((f x).residue scene false params : Walk φ ρ α Unit) = pure ())
    (o : Outcome σ (Turn φ ρ α)) (made : List (Spawn α)) :
    ((o.map f).left made fun s => if s.isDone then pure () else s.residue scene false params)
      = o.left made fun x => (f x).residue scene false params := by
  unfold left map
  simp only
  split
  · rfl
  · split
    · rfl
    · split
      · next hd => rw [h _ hd]
      · rfl

theorem Contract.resumes_kept (stage : Stage) (owner : Bullet α) (made : List (Spawn α)) :
    (resumes (φ := φ) (ρ := ρ) stage owner made).Kept stage where
  done {params s t} hd := ⟨rfl, fun _ ht hv => ⟨ht, by rw [Outcome.left_of_stays _ hv]⟩⟩
  scopeFails {params s t e t₁} hd hr := by
    refine ⟨rfl, fun _ ht _ => ?_⟩
    have hdraws := Turn.Draws.of_resolve hr
    refine ⟨hdraws.owner.trans ht, ?_⟩
    -- The walk fails at the same argument, after the same draws.
    rw [Sequence.residue_eq, if_neg (by simp [hd])]
    exact run_error (Turn.run_enter_error hr owner made)
  current {params s t scope isNew t₁ step o} hd hr hc ho := by
    refine ⟨(keepsBlank_kept stage).current hd hr hc ho.1, fun hs ht hv => ?_⟩
    have hdraws := Turn.Draws.of_resolve hr
    -- A turn leaves alone of which kinds the steps are, so what is below it is still steady.
    have hblank := s.blank_withScope isNew (Turn.blank_resolve hr)
    have hstep : step.only StepKind.isSteady = true :=
      Sequence.only_iff.1 ((Sequence.only_congr hblank).trans hs) step (List.mem_of_getElem? hc)
    obtain ⟨hown, hrun⟩ := ho.2 hstep (hdraws.owner.trans ht) (hdraws.removed.trans hv)
    exact ⟨by rw [Sequence.turn_settle]; exact hown, Sequence.run_settle hd hr hc hrun⟩
  nested {params s t o} ho := by
    refine ⟨congrArg Step.sequence ho.1, fun hs ht hv => ?_⟩
    obtain ⟨hown, hrun⟩ := ho.2 hs ht hv
    refine ⟨hown, ?_⟩
    rw [Outcome.left_map (f := Step.sequence) fun s hd => Sequence.residue_of_isDone hd false params]
    exact hrun
  fire params f t :=
    ⟨FireStep.blank_dispatch stage params f t, fun _ ht hv => f.run_dispatch stage made params ht hv⟩
  -- A mutation is not steady: the owner of a walk stays as it is.
  mutation params m t := ⟨(keepsBlank_kept stage).mutation params m t, fun hs => by cases hs⟩
  wait params w t :=
    ⟨(keepsBlank_kept stage).wait params w t, fun _ ht hv => w.run_dispatch stage made params ht hv⟩
  vanish _ _ _ := ⟨rfl, fun _ ht _ => ⟨ht, rfl⟩⟩
  countFails {params l t e t₁} hl hr := by
    refine ⟨rfl, fun _ ht _ => ⟨(Turn.Draws.of_eval hr).owner.trans ht, ?_⟩⟩
    rw [Step.residue, LoopStep.residue_of_none hl]
    exact run_error (Turn.walk_eval_error hr owner made)
  entered {params l t x t₁ o} hl hr ho := by
    have hblank : keepsBlank.step params (.loop l) t (o.map .loop) :=
      (keepsBlank_kept stage).entered hl hr ho.1
    refine ⟨hblank, fun hs ht hv => ?_⟩
    have hdraws := Turn.Draws.of_eval hr
    have hbody : l.body.only StepKind.isSteady = true := LoopStep.only_body hs
    obtain ⟨hown, hround⟩ := ho.2 hbody (hdraws.owner.trans ht) (hdraws.removed.trans hv)
    refine ⟨hown, ?_⟩
    rw [Outcome.left_map (f := Step.loop) fun l hd => LoopStep.residue_of_isDone hd false params]
    -- The walk draws the count first and makes all rounds; the loop has the same count from here on.
    rw [LoopStep.residue_of_target rfl] at hround
    rw [Step.residue, LoopStep.residue_of_none hl]
    exact (run_ok (Turn.walk_eval_ok hr owner made)).trans hround
  resumed {params l t o n} hl ho := by
    have hblank : keepsBlank.step params (.loop l) t (o.map .loop) :=
      (keepsBlank_kept stage).resumed hl ho.1
    refine ⟨hblank, fun hs ht hv => ?_⟩
    obtain ⟨hown, hround⟩ := ho.2 (LoopStep.only_body hs) ht hv
    refine ⟨hown, ?_⟩
    rw [Outcome.left_map (f := Step.loop) fun l hd => LoopStep.residue_of_isDone hd false params]
    exact hround
  ended {params l t n} hl hn := ⟨⟨rfl, rfl⟩, fun _ ht hv => ⟨ht, by rw [Outcome.left_of_stays _ hv]⟩⟩
  exhausted {params l t n} hl hn hb :=
    ⟨⟨rfl, rfl⟩, fun _ ht hv =>
      ⟨ht, by rw [Outcome.left_of_stays (t := t.exhaust) _ hv]; rfl⟩⟩
  fails {params l t n o e} hl hn hb ho he := by
    refine ⟨⟨rfl, ho.1⟩, fun hs ht hv => ?_⟩
    obtain ⟨hown, hrun⟩ := ho.2 hs ht hv
    -- At least one round is left, and it is in this one that the walk fails.
    obtain ⟨k, hk⟩ : ∃ k, n - l.completed = k + 1 := ⟨n - l.completed - 1, by omega⟩
    refine ⟨hown, ?_⟩
    rw [Outcome.left, he] at hrun
    rw [LoopStep.residue_of_target hl, hk]
    exact run_error hrun
  yields {params l t n o} hl hn hb ho he hy := by
    have hblank : keepsBlank.rounds params l t
        ⟨({ l with body := o.step } : LoopStep Step).settle, o.turn, none⟩ :=
      (keepsBlank_kept stage).yields hl hn hb ho.1 he hy
    refine ⟨hblank, fun hs ht hv => ?_⟩
    obtain ⟨hown, hrun⟩ := ho.2 hs ht hv
    refine ⟨hown, ?_⟩
    obtain ⟨body, turn, error⟩ := o
    simp only at he
    subst he
    -- A turn yields when a wait goes on, or when a vanish cuts off all that is left.
    rcases hv' : turn.removed with _ | _
    · rw [Outcome.left_of_stays _ hv'] at hrun ⊢
      exact LoopStep.run_round hl hn ho.1 hrun
    · obtain ⟨k, hk⟩ : ∃ k, n - l.completed = k + 1 := ⟨n - l.completed - 1, by omega⟩
      rw [Outcome.left_of_removed _ hv'] at hrun ⊢
      rw [LoopStep.residue_of_target hl, hk]
      exact run_error hrun
  again {params l t n o o'} hl hn hb ho he hy hrest := by
    have hblank : keepsBlank.rounds params l t o' :=
      (keepsBlank_kept stage).again hl hn hb ho.1 he hy hrest.1
    refine ⟨hblank, fun hs ht hv => ?_⟩
    obtain ⟨hown, hrun⟩ := ho.2 hs ht hv
    obtain ⟨body, turn, error⟩ := o
    simp only at he
    subst he
    have hv' : turn.removed = false := (Bool.or_eq_false_iff.1 hy).2
    have hbody : ({ l with body } : LoopStep Step).settle.body.only StepKind.isSteady = true := by
      rw [← hs]
      exact Sequence.only_congr ((LoopStep.blank_settle _).2.trans ho.1)
    -- This round leads to where the loop settles, and the rounds to come go on from there.
    obtain ⟨hown', hrest⟩ := hrest.2 hbody hown hv'
    refine ⟨hown', Eq.trans ?_ hrest⟩
    rw [Outcome.left_of_stays _ hv'] at hrun
    exact LoopStep.run_round hl hn ho.1 hrun

/-- What is left before a turn is what the turn does and what is left after it. -/
theorem Sequence.residue_advance (stage : Stage) (params : Params) (s : Sequence Step)
    {t : Turn φ ρ α} (hs : s.only StepKind.isSteady = true) (hv : t.removed = false)
    (made : List (Spawn α)) :
    (s.advance stage params t).turn.owner = t.owner ∧
      (s.residue (stage.scene t.owner) false params).run (t.world made)
        = (s.advance stage params t).left made fun s =>
            s.residue (stage.scene t.owner) false params :=
  ((Contract.resumes_kept stage t.owner made).advance params s t).2 hs rfl hv

end Barrage
