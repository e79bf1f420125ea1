import Barrage.Step.Forget
import Barrage.Walk.Lemmas

/-!
# What is left of a walk

A step that was suspended stands for the part of its walk that is still to come.

* `Step.walk`: the walk of a step from its start, whatever it has done so far.
* `Step.residue`: what is left of it. A loop that was entered is left with the rest of its current
  iteration and then with the walks of its body; a pause that was entered is left with nothing.
* `Step.residue_expire`, `Step.residue_reset`: the residue after an operation from outside.
* `Step.residueFrom_of_getElem?`: what is left of a sequence is what is left of the step under its
  cursor, then what is left of the steps after it.
* `Step.grows_residue`: no bullet that was made is lost.
-/

namespace Barrage

variable {φ ρ α : Type} [RandomSource ρ]

/-! ## Scopes -/

namespace Scope

/-- The parameters of a scope that is entered for the first time. -/
def derive (scene : Scene α) (params : Params) : Scope → Walk φ ρ α Params
  | shared => pure params
  | derived args _ _ => Walk.draw (scene.values params args)

/-- The parameters of a scope, and whether they are new to what is below it. They are if the
parameters around the scope are and it shares them, or if they have to be derived. -/
def enter (scene : Scene α) (isNew : Bool) (params : Params) : Scope → Walk φ ρ α (Params × Bool)
  | shared => pure (params, isNew)
  | derived args values current =>
    if current && !isNew then pure (values, false)
    else do
      let values ← Walk.draw (scene.values params args)
      pure (values, true)

end Scope

variable [BulletFactory φ α]

/-! ## Walks of steps -/

mutual

/-- The walk of a step from its start. -/
def Step.walk (scene : Scene α) : Step → Params → Walk φ ρ α Unit
  | .sequence s, params => s.walk scene params
  | .loop l, params => l.walk scene params
  | .fire f, params => do
    let values ← f.scope.derive scene params
    scene.shoot values f.fire f.definition f.args
  | .mutation _, _ => pure ()
  | .wait w, params => do
    let _ ← Walk.draw (scene.value params w.length)
  | .vanish _, _ => throw .vanished
termination_by structural s => s

/-- The walk of a sequence from its start. A sequence without steps is not entered. -/
def Sequence.walk (scene : Scene α) : Sequence Step → Params → Walk φ ρ α Unit
  | ⟨_, scope, children, _⟩, params =>
    if children.isEmpty then pure ()
    else do
      let values ← scope.derive scene params
      Step.walkAll scene children values
termination_by structural s => s

/-- The walk of a loop from its start. -/
def LoopStep.walk (scene : Scene α) : LoopStep Step → Params → Walk φ ρ α Unit
  | ⟨count, _, _, body⟩, params => do
    let x ← Walk.draw (scene.value params count)
    Walk.times x.count.toNat (body.walk scene params)
termination_by structural l => l

/-- The walks of several steps, one after the other. -/
def Step.walkAll (scene : Scene α) : List Step → Params → Walk φ ρ α Unit
  | [], _ => pure ()
  | s :: rest, params => do
    s.walk scene params
    Step.walkAll scene rest params
termination_by structural l => l

end

/-- A number of rounds of which the first may be under way. -/
def Walk.rounds : Nat → Walk φ ρ α Unit → Walk φ ρ α Unit → Walk φ ρ α Unit
  | 0, _, _ => pure ()
  | n + 1, first, m => do
    first
    Walk.times n m

mutual

/-- What is left of a step; `isNew` says that the parameters around it have changed. -/
def Step.residue (scene : Scene α) : Step → Bool → Params → Walk φ ρ α Unit
  | .sequence s, isNew, params => s.residue scene isNew params
  | .loop l, isNew, params => l.residue scene isNew params
  | .fire f, isNew, params => do
    let (values, _) ← f.scope.enter scene isNew params
    scene.shoot values f.fire f.definition f.args
  | .mutation _, _, _ => pure ()
  | .wait w, _, params =>
    match w.duration with
    | some _ => pure ()
    | none => do
      let _ ← Walk.draw (scene.value params w.length)
  | .vanish _, _, _ => throw .vanished
termination_by structural s => s

/-- What is left of a sequence. -/
def Sequence.residue (scene : Scene α) : Sequence Step → Bool → Params → Walk φ ρ α Unit
  | ⟨_, scope, children, cursor⟩, isNew, params =>
    if children.length ≤ cursor then pure ()
    else do
      let (values, isNew) ← scope.enter scene isNew params
      Step.residueFrom scene children cursor isNew values
termination_by structural s => s

/-- What is left of a loop. -/
def LoopStep.residue (scene : Scene α) : LoopStep Step → Bool → Params → Walk φ ρ α Unit
  | ⟨count, target, completed, body⟩, isNew, params =>
    match target with
    | some n =>
      Walk.rounds (n - completed) (body.residue scene isNew params) (body.walk scene params)
    | none => do
      let x ← Walk.draw (scene.value params count)
      Walk.rounds (x.count.toNat - completed) (body.residue scene isNew params)
        (body.walk scene params)
termination_by structural l => l

/-- What is left of the steps from a place on. -/
def Step.residueFrom (scene : Scene α) : List Step → Nat → Bool → Params → Walk φ ρ α Unit
  | [], _, _, _ => pure ()
  | s :: rest, 0, isNew, params => do
    s.residue scene isNew params
    Step.residueFrom scene rest 0 isNew params
  | _ :: rest, n + 1, isNew, params => Step.residueFrom scene rest n isNew params
termination_by structural l => l

end

variable {scene : Scene α}

theorem Sequence.walk_eq (s : Sequence Step) (params : Params) :
    (s.walk scene params : Walk φ ρ α Unit) =
      if s.children.isEmpty then pure ()
      else s.scope.derive scene params >>= Step.walkAll scene s.children := by
  cases s
  rfl

theorem LoopStep.walk_eq (l : LoopStep Step) (params : Params) :
    (l.walk scene params : Walk φ ρ α Unit) =
      Walk.draw (scene.value params l.times) >>= fun x =>
        Walk.times x.count.toNat (l.body.walk scene params) := by
  cases l
  rfl

theorem Sequence.residue_eq (s : Sequence Step) (isNew : Bool) (params : Params) :
    (s.residue scene isNew params : Walk φ ρ α Unit) =
      if s.isDone then pure ()
      else s.scope.enter scene isNew params >>= fun x =>
        Step.residueFrom scene s.children s.cursor x.2 x.1 := by
  cases s
  simp only [residue, isDone, decide_eq_true_eq]

theorem LoopStep.residue_of_target {l : LoopStep Step} {n : Nat} (h : l.target = some n)
    (isNew : Bool) (params : Params) :
    (l.residue scene isNew params : Walk φ ρ α Unit) =
      Walk.rounds (n - l.completed) (l.body.residue scene isNew params)
        (l.body.walk scene params) := by
  cases l
  simp only at h
  subst h
  rfl

theorem LoopStep.residue_of_none {l : LoopStep Step} (h : l.target = none) (isNew : Bool)
    (params : Params) :
    (l.residue scene isNew params : Walk φ ρ α Unit) =
      Walk.draw (scene.value params l.times) >>= fun x =>
        Walk.rounds (x.count.toNat - l.completed) (l.body.residue scene isNew params)
          (l.body.walk scene params) := by
  cases l
  simp only at h
  subst h
  rfl

/-! ## The walk does not depend on what was done -/

omit [BulletFactory φ α] in
theorem Scope.derive_blank (scope : Scope) (params : Params) :
    (scope.expire.forget.derive scene params : Walk φ ρ α Params) = scope.derive scene params := by
  cases scope <;> rfl

theorem Step.walkAll_map {l : List Step} {f : Step → Step}
    (h : ∀ c ∈ l, ∀ params, ((f c).walk scene params : Walk φ ρ α Unit) = c.walk scene params)
    (params : Params) :
    (Step.walkAll scene (l.map f) params : Walk φ ρ α Unit) = Step.walkAll scene l params := by
  induction l with
  | nil => rfl
  | cons c rest ih =>
    rw [List.map_cons, Step.walkAll, Step.walkAll, h c List.mem_cons_self,
      ih fun c hc => h c (List.mem_cons_of_mem _ hc)]

theorem Step.walk_blank (s : Step) (params : Params) :
    (s.blank.walk scene params : Walk φ ρ α Unit) = s.walk scene params := by
  induction s using Step.induction generalizing params with
  | sequence s ih =>
    have hall : (Step.walkAll scene (s.children.map Step.blank) : Params → Walk φ ρ α Unit)
        = Step.walkAll scene s.children := funext (Step.walkAll_map ih)
    simp only [Step.blank_sequence, Step.walk, Sequence.walk_eq, Sequence.blank_eq,
      List.isEmpty_map, Scope.derive_blank, hall]
  | loop l ih =>
    have hbody : (l.body.blank.walk scene params : Walk φ ρ α Unit) = l.body.walk scene params :=
      ih params
    simp only [Step.blank_loop, Step.walk, LoopStep.walk_eq, hbody]
  | fire f =>
    show (f.scope.expire.forget.derive scene params >>= fun values =>
      scene.shoot values f.fire f.definition f.args : Walk φ ρ α Unit) = _
    rw [Scope.derive_blank, Step.walk]
  | mutation _ | wait _ | vanish _ => rfl

/-- The walk of a sequence does not depend on what it has done. -/
theorem Sequence.walk_congr {s s' : Sequence Step} (h : s'.blank = s.blank) (params : Params) :
    (s'.walk scene params : Walk φ ρ α Unit) = s.walk scene params := by
  have hblank (s : Sequence Step) :
      (s.blank.walk scene params : Walk φ ρ α Unit) = s.walk scene params :=
    Step.walk_blank (.sequence s) params
  rw [← hblank s', h, hblank s]

/-! ## Operations from outside -/

omit [RandomSource ρ] [BulletFactory φ α] in
theorem Walk.rounds_self (n : Nat) (m : Walk φ ρ α Unit) : Walk.rounds n m m = Walk.times n m := by
  cases n <;> rfl

theorem Step.residueFrom_map {l : List Step} {f : Step → Step} {isNew isNew' : Bool}
    (h : ∀ c ∈ l, ∀ params,
      ((f c).residue scene isNew params : Walk φ ρ α Unit) = c.residue scene isNew' params)
    (n : Nat) (params : Params) :
    (Step.residueFrom scene (l.map f) n isNew params : Walk φ ρ α Unit)
      = Step.residueFrom scene l n isNew' params := by
  induction l generalizing n with
  | nil => rfl
  | cons c rest ih =>
    have ih := ih fun c hc => h c (List.mem_cons_of_mem _ hc)
    cases n with
    | zero => rw [List.map_cons, Step.residueFrom, Step.residueFrom, h c List.mem_cons_self, ih]
    | succ n => exact ih n

/-- What is left of a step that was reset is all of its walk. -/
theorem Step.residue_reset (s : Step) (isNew : Bool) (params : Params) :
    (s.reset.residue scene isNew params : Walk φ ρ α Unit) = s.walk scene params := by
  induction s using Step.induction generalizing isNew params with
  | sequence s ih =>
    have hall (l : List Step) (hl : ∀ c ∈ l, c ∈ s.children) (isNew : Bool) (params : Params) :
        (Step.residueFrom scene (l.map Step.reset) 0 isNew params : Walk φ ρ α Unit)
          = Step.walkAll scene l params := by
      induction l with
      | nil => rfl
      | cons c rest ih' =>
        rw [List.map_cons, Step.residueFrom, Step.walkAll, ih c (hl c List.mem_cons_self),
          ih' fun c hc => hl c (List.mem_cons_of_mem _ hc)]
    simp only [Step.reset, Step.residue, Step.walk, Sequence.residue_eq, Sequence.walk_eq,
      Sequence.isDone_reset]
    split
    · rfl
    · rw [Sequence.reset_eq]
      rcases s.scope with _ | ⟨args, values, current⟩
      · simp only [Scope.expire, Scope.enter, Scope.derive, pure_bind]
        exact hall _ (fun _ h => h) _ _
      · simp only [Scope.expire, Scope.enter, Scope.derive, Bool.false_and, Bool.false_eq_true,
          if_false, bind_assoc, pure_bind, hall _ (fun _ h => h)]
  | loop l ih =>
    have hbody : (l.body.reset.residue scene isNew params : Walk φ ρ α Unit)
        = l.body.walk scene params := ih isNew params
    have hwalk : (l.body.reset.walk scene params : Walk φ ρ α Unit) = l.body.walk scene params :=
      Sequence.walk_congr l.body.blank_reset params
    simp only [Step.reset, Step.residue, Step.walk, LoopStep.reset_eq, LoopStep.walk_eq]
    rw [LoopStep.residue_of_none rfl]
    simp only [hbody, hwalk, Walk.rounds_self, Nat.sub_zero]
  | fire f =>
    rcases hs : f.scope with _ | ⟨args, values, current⟩ <;>
      simp [Step.reset, FireStep.reset, Step.residue, Step.walk, hs, Scope.expire, Scope.enter,
        Scope.derive]
  | mutation _ | wait _ | vanish _ => rfl

/-- What is left of a loop depends on its body by what is left of that and by its walk. -/
theorem LoopStep.residue_body {l : LoopStep Step} {body : Sequence Step} {isNew isNew' : Bool}
    {params : Params}
    (hbody : (body.residue scene isNew params : Walk φ ρ α Unit)
      = l.body.residue scene isNew' params)
    (hwalk : (body.walk scene params : Walk φ ρ α Unit) = l.body.walk scene params) :
    (({ l with body } : LoopStep Step).residue scene isNew params : Walk φ ρ α Unit)
      = l.residue scene isNew' params := by
  rcases hl : l.target with _ | n
  · rw [residue_of_none hl, residue_of_none rfl]
    simp only [hbody, hwalk]
  · rw [residue_of_target hl, residue_of_target rfl]
    simp only [hbody, hwalk]

/-- What is left of a step after the parameters around it have changed. -/
theorem Step.residue_expire (s : Step) (params : Params) :
    (s.expire.residue scene false params : Walk φ ρ α Unit) = s.residue scene true params := by
  induction s using Step.induction generalizing params with
  | sequence s ih =>
    simp only [Step.expire, Step.residue, Sequence.residue_eq]
    have hd : s.expire.isDone = s.isDone := by
      rw [Sequence.expire_eq, Sequence.isDone, Sequence.isDone]
      simp only
      split <;> simp
    rw [hd]
    split
    · rfl
    · rw [Sequence.expire_eq]
      -- Only a shared scope passes the change on; any other derives its own parameters again.
      rcases hs : s.scope with _ | ⟨args, values, current⟩
      · simp only [Scope.isShared, Scope.expire, Scope.enter, pure_bind, if_true]
        exact Step.residueFrom_map ih s.cursor params
      · simp only [Scope.isShared, Scope.expire, Scope.enter, Bool.false_and, Bool.not_true,
          Bool.and_false, Bool.false_eq_true, if_false]
  | loop l ih =>
    have hblank : l.body.expire.blank = l.body.blank :=
      Step.sequence.inj (Step.blank_expire (.sequence l.body))
    simp only [Step.expire, Step.residue, LoopStep.expire_eq]
    exact LoopStep.residue_body (ih params) (Sequence.walk_congr hblank params)
  | fire f =>
    rcases hs : f.scope with _ | ⟨args, values, current⟩ <;>
      simp [Step.expire, Step.residue, hs, Scope.expire, Scope.enter]
  | mutation _ | wait _ | vanish _ => rfl

/-- What is left of a step does not depend on values that no longer hold. -/
theorem Step.residue_forget (s : Step) (isNew : Bool) (params : Params) :
    (s.forget.residue scene isNew params : Walk φ ρ α Unit) = s.residue scene isNew params := by
  induction s using Step.induction generalizing isNew params with
  | sequence s ih =>
    have hall (n : Nat) (isNew : Bool) (params : Params) :
        (Step.residueFrom scene (s.children.map Step.forget) n isNew params : Walk φ ρ α Unit)
          = Step.residueFrom scene s.children n isNew params :=
      Step.residueFrom_map (fun c hc => ih c hc isNew) n params
    simp only [Step.forget, Step.residue, Sequence.residue_eq, Sequence.isDone_forget]
    split
    · rfl
    · rw [Sequence.forget_eq]
      rcases s.scope with _ | ⟨args, values, _ | _⟩ <;>
        simp only [Scope.forget, Scope.enter, hall, Bool.false_and, Bool.false_eq_true, if_false]
  | loop l ih =>
    simp only [Step.forget, Step.residue, LoopStep.forget_eq]
    exact LoopStep.residue_body (ih isNew params)
      (Sequence.walk_congr (Sequence.forget_reset l.body) params)
  | fire f =>
    rcases hs : f.scope with _ | ⟨args, values, _ | _⟩ <;>
      simp [Step.forget, Step.residue, hs, Scope.forget, Scope.enter]
  | mutation _ | wait _ | vanish _ => rfl

/-- What is left of a step that was not entered yet is all of its walk. -/
theorem Step.residue_of_blank {s : Step} (h : s.blank = s) (isNew : Bool) (params : Params) :
    (s.residue scene isNew params : Walk φ ρ α Unit) = s.walk scene params := by
  have hblank : (s.blank.residue scene isNew params : Walk φ ρ α Unit)
      = s.reset.residue scene isNew params := Step.residue_forget s.reset isNew params
  rw [h] at hblank
  rw [hblank, Step.residue_reset]

theorem Sequence.residue_of_blank {s : Sequence Step} (h : s.blank = s) (isNew : Bool)
    (params : Params) :
    (s.residue scene isNew params : Walk φ ρ α Unit) = s.walk scene params :=
  Step.residue_of_blank (s := .sequence s) (congrArg Step.sequence h) isNew params

/-! ## Step by step -/

theorem Step.residueFrom_of_le {l : List Step} {n : Nat} (h : l.length ≤ n) (isNew : Bool)
    (params : Params) :
    (Step.residueFrom scene l n isNew params : Walk φ ρ α Unit) = pure () := by
  induction l generalizing n with
  | nil => rfl
  | cons c rest ih =>
    cases n with
    | zero => simp at h
    | succ n => exact ih (by simpa using h)

/-- What is left from a place on is what is left of the step there, then what is left after it. -/
theorem Step.residueFrom_of_getElem? {l : List Step} {n : Nat} {c : Step} (h : l[n]? = some c)
    (isNew : Bool) (params : Params) :
    (Step.residueFrom scene l n isNew params : Walk φ ρ α Unit) =
      c.residue scene isNew params >>= fun _ => Step.residueFrom scene l (n + 1) isNew params := by
  induction l generalizing n with
  | nil => simp at h
  | cons a rest ih =>
    cases n with
    | zero =>
      simp only [List.getElem?_cons_zero, Option.some.injEq] at h
      subst h
      rfl
    | succ n => exact ih (by simpa using h)

/-- What is left after a place does not depend on the step there. -/
theorem Step.residueFrom_set_succ (l : List Step) (n : Nat) (c : Step) (isNew : Bool)
    (params : Params) :
    (Step.residueFrom scene (l.set n c) (n + 1) isNew params : Walk φ ρ α Unit)
      = Step.residueFrom scene l (n + 1) isNew params := by
  induction l generalizing n with
  | nil => rfl
  | cons a rest ih =>
    cases n with
    | zero => rfl
    | succ n => exact ih n

/-! ## No bullet is lost -/

omit [BulletFactory φ α] in
theorem Scope.grows_enter (isNew : Bool) (params : Params) (scope : Scope) :
    (scope.enter scene isNew params : Walk φ ρ α (Params × Bool)).Grows := by
  rcases scope with _ | ⟨args, values, current⟩
  · exact Walk.grows_pure _
  · rw [enter]
    split
    · exact Walk.grows_pure _
    · exact (Walk.grows_draw _).bind fun _ => Walk.grows_pure _

omit [BulletFactory φ α] in
theorem Scope.grows_derive (params : Params) (scope : Scope) :
    (scope.derive scene params : Walk φ ρ α Params).Grows := by
  rcases scope with _ | ⟨args, values, current⟩
  · exact Walk.grows_pure _
  · exact Walk.grows_draw _

theorem Step.grows_walk (s : Step) (params : Params) :
    (s.walk scene params : Walk φ ρ α Unit).Grows := by
  induction s using Step.induction generalizing params with
  | sequence s ih =>
    have hall (l : List Step) (hl : ∀ c ∈ l, c ∈ s.children) (params : Params) :
        (Step.walkAll scene l params : Walk φ ρ α Unit).Grows := by
      induction l with
      | nil => exact Walk.grows_pure _
      | cons c rest ih' =>
        exact (ih c (hl c List.mem_cons_self) params).bind fun _ =>
          ih' fun c hc => hl c (List.mem_cons_of_mem _ hc)
    rw [Step.walk, Sequence.walk_eq]
    split
    · exact Walk.grows_pure _
    · exact (Scope.grows_derive params s.scope).bind (hall _ fun _ h => h)
  | loop l ih =>
    rw [Step.walk, LoopStep.walk_eq]
    exact (Walk.grows_draw _).bind fun x => Walk.Grows.times (ih params) x.count.toNat
  | fire f => exact (Scope.grows_derive params f.scope).bind fun _ => scene.grows_shoot _ _ _ _
  | mutation _ => exact Walk.grows_pure _
  | wait w => exact (Walk.grows_draw _).bind fun _ => Walk.grows_pure _
  | vanish _ => exact Walk.grows_throw _

omit [RandomSource ρ] [BulletFactory φ α] in
theorem Walk.Grows.rounds {first m : Walk φ ρ α Unit} (hf : first.Grows) (hm : m.Grows) (n : Nat) :
    (Walk.rounds n first m).Grows := by
  cases n with
  | zero => exact Walk.grows_pure _
  | succ n => exact hf.bind fun _ => hm.times n

/-- No bullet that was made is lost. -/
theorem Step.grows_residue (s : Step) (isNew : Bool) (params : Params) :
    (s.residue scene isNew params : Walk φ ρ α Unit).Grows := by
  induction s using Step.induction generalizing isNew params with
  | sequence s ih =>
    -- The cursor moves along with the list, to zero where the steps still to run begin.
    have hall (l : List Step) (hl : ∀ c ∈ l, c ∈ s.children) (n : Nat) (isNew : Bool)
        (params : Params) : (Step.residueFrom scene l n isNew params : Walk φ ρ α Unit).Grows := by
      induction l generalizing n with
      | nil => exact Walk.grows_pure _
      | cons c rest ih' =>
        have ih' := ih' fun c hc => hl c (List.mem_cons_of_mem _ hc)
        cases n with
        | zero => exact (ih c (hl c List.mem_cons_self) isNew params).bind fun _ => ih' 0
        | succ n => exact ih' n
    rw [Step.residue, Sequence.residue_eq]
    split
    · exact Walk.grows_pure _
    · exact (Scope.grows_enter isNew params s.scope).bind fun x => hall _ (fun _ h => h) _ _ _
  | loop l ih =>
    have hbody := ih isNew params
    have hwalk : (l.body.walk scene params : Walk φ ρ α Unit).Grows :=
      Step.grows_walk (.sequence l.body) params
    rw [Step.residue]
    rcases hl : l.target with _ | n
    · rw [LoopStep.residue_of_none hl]
      exact (Walk.grows_draw _).bind fun x => Walk.Grows.rounds hbody hwalk _
    · rw [LoopStep.residue_of_target hl]
      exact Walk.Grows.rounds hbody hwalk _
  | fire f => exact (Scope.grows_enter isNew params f.scope).bind fun _ => scene.grows_shoot _ _ _ _
  | mutation _ => exact Walk.grows_pure _
  | wait w =>
    rw [Step.residue]
    split
    · exact Walk.grows_pure _
    · exact (Walk.grows_draw _).bind fun _ => Walk.grows_pure _
  | vanish _ => exact Walk.grows_throw _

end Barrage
