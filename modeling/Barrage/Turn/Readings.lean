import Barrage.Turn.Journal

/-!
# What is evaluated

* `Reading`: a formula and the parameters that it is evaluated against.
* `Scope.pending`, `WaitStep.pending`, `MutationStep.pending`: the formulas that a part has yet to
  evaluate. One that has its values has none.
* `FireStep.headingBy`, `FireStep.paceBy`: the formula that counts for the heading or the speed of a
  bullet, with what belongs to the fire or to the definition.
* `Turn.Reads`: nothing happened but some evaluations, in order.
* `Turn.Consults`: some formulas are evaluated in order, each once, up to the first that has no value.
  `Turn.consults_resolve` and its like say which formulas the parts of a step consult.
-/

namespace Barrage

/-- A formula and the parameters that it is evaluated against. -/
abbrev Reading := Formula × Params

/-- Formulas that are evaluated against the same parameters. -/
def against (params : Params) (fs : List Formula) : List Reading := fs.map (·, params)

/-- The arguments that a scope has yet to evaluate. -/
def Scope.pending : Scope → List Formula
  | .derived args _ false => args
  | _ => []

/-- The formula that a pause has yet to evaluate. -/
def WaitStep.pending (w : WaitStep) : List Formula :=
  match w.duration with
  | none => [w.length]
  | some _ => []

/-- The formulas that a mutation has yet to evaluate. -/
def MutationStep.pending (m : MutationStep) : List Formula :=
  match m.glide with
  | none => [m.term, m.steering.value]
  | some _ => []

section

variable {β : Type}

/-- The formula that the heading of a bullet is taken from: that of the fire, else that of the
definition, with what belongs to the one or the other. -/
def FireStep.headingBy (own inner : β) (f : FireStep) : List (Formula × β) :=
  match f.fire.direction, f.definition.direction with
  | some spec, _ => [(spec.value, own)]
  | none, some spec => [(spec.value, inner)]
  | none, none => []

/-- The formula that the speed of a bullet is taken from. -/
def FireStep.paceBy (own inner : β) (f : FireStep) : List (Formula × β) :=
  match f.fire.speed, f.definition.speed with
  | some spec, _ => [(spec.value, own)]
  | none, some spec => [(spec.value, inner)]
  | none, none => []

end

namespace Turn

variable {φ ρ α β : Type} {t t' t'' : Turn φ ρ α} {params : Params} {fs : List Formula}
  {us us' : List Reading}

/-- Nothing happened but some evaluations, in order. -/
structure Reads (us : List Reading) (t t' : Turn φ ρ α) : Prop where
  draws : t.Draws t'
  logs : t.Logs t' (us.map fun u => .evaluated u.1 u.2)

theorem Reads.refl (t : Turn φ ρ α) : Reads [] t t := ⟨.refl t, .refl t⟩

theorem Reads.trans (h : Reads us t t') (h' : Reads us' t' t'') : Reads (us ++ us') t t'' := by
  refine ⟨h.draws.trans h'.draws, ?_⟩
  rw [List.map_append]
  exact h.logs.trans h'.logs

/-- What a turn comes to after some formulas were evaluated against some parameters, in order and each
once: all of them if there is a result, else those up to the one that has no value. -/
def Consults (params : Params) (fs : List Formula) (t : Turn φ ρ α)
    (x : Except EvalError β × Turn φ ρ α) : Prop :=
  ∃ gs, gs <+: fs ∧ Reads (against params gs) t x.2 ∧ ∀ y, x.1 = .ok y → gs = fs

/-- The evaluations behind a result. -/
theorem Consults.reads {x : Except EvalError β × Turn φ ρ α} (h : Consults params fs t x) {y : β}
    (hx : x.1 = .ok y) : Reads (against params fs) t x.2 := by
  obtain ⟨gs, -, hreads, hall⟩ := h
  exact hall y hx ▸ hreads

/-- Nothing has to be evaluated for a result that is there. -/
theorem consults_nil (params : Params) (r : Except EvalError β) (t : Turn φ ρ α) :
    Consults params [] t (r, t) :=
  ⟨[], List.prefix_refl _, .refl t, fun _ _ => rfl⟩

variable [RandomSource ρ] (stage : Stage)

theorem reads_eval (params : Params) (f : Formula) (t : Turn φ ρ α) :
    Reads [(f, params)] t (t.eval stage params f).2 :=
  ⟨draws_eval stage params f t, logs_log { t with source := _ } _⟩

theorem consults_eval (params : Params) (f : Formula) (t : Turn φ ρ α) :
    Consults params [f] t (t.eval stage params f) :=
  ⟨[f], List.prefix_refl _, reads_eval stage params f t, fun _ _ => rfl⟩

theorem consults_evalAll (params : Params) (fs : List Formula) (t : Turn φ ρ α) :
    Consults params fs t (t.evalAll stage params fs) := by
  induction fs generalizing t with
  | nil => exact consults_nil params _ t
  | cons f rest ih =>
    have h := reads_eval stage params f t
    rw [evalAll]
    rcases hr : t.eval stage params f with ⟨e | x, t₁⟩ <;> rw [hr] at h
    · exact ⟨[f], List.prefix_append [f] rest, h, fun y hy => by cases hy⟩
    · obtain ⟨gs, hgs, hreads, hall⟩ := ih t₁
      simp only
      rcases hr₁ : t₁.evalAll stage params rest with ⟨e | xs, t₂⟩ <;> rw [hr₁] at hreads hall
      · exact ⟨f :: gs, (List.cons_prefix_cons).2 ⟨rfl, hgs⟩, h.trans hreads, fun y hy => by cases hy⟩
      · have hgs : gs = rest := hall xs rfl
        exact ⟨f :: rest, List.prefix_refl _, hgs ▸ h.trans hreads, fun _ _ => rfl⟩

theorem consults_resolve (outer : Params) (scope : Scope) (t : Turn φ ρ α) :
    Consults outer scope.pending t (t.resolve stage outer scope) := by
  rcases scope with _ | ⟨args, values, _ | _⟩
  · exact consults_nil outer _ t
  · obtain ⟨gs, hgs, hreads, hall⟩ := consults_evalAll stage outer args t
    rw [resolve]
    rcases hr : t.evalAll stage outer args with ⟨e | xs, t₁⟩ <;> rw [hr] at hreads hall
    · exact ⟨gs, hgs, hreads, fun y hy => by cases hy⟩
    · exact ⟨gs, hgs, hreads, fun _ _ => hall xs rfl⟩
  · exact consults_nil outer _ t

theorem consults_pauseFor (params : Params) (w : WaitStep) (t : Turn φ ρ α) :
    Consults params w.pending t (t.pauseFor stage params w) := by
  unfold pauseFor WaitStep.pending
  cases w.duration with
  | none => exact consults_eval stage params w.length t
  | some d => exact consults_nil params _ t

theorem consults_settle (params : Params) (m : MutationStep) (t : Turn φ ρ α) :
    Consults params m.pending t (t.settle stage params m) := by
  unfold settle MutationStep.pending
  cases m.glide with
  | some g => exact consults_nil params _ t
  | none =>
    have h := reads_eval stage params m.term t
    simp only
    rcases hr : t.eval stage params m.term with ⟨e | duration, t₁⟩ <;> rw [hr] at h
    · exact ⟨_, List.prefix_append [m.term] _, h, fun y hy => by cases hy⟩
    · have h₁ := reads_eval stage params m.steering.value t₁
      simp only
      rcases hr₁ : t₁.eval stage params m.steering.value with ⟨e | value, t₂⟩ <;> rw [hr₁] at h₁
      · exact ⟨_, List.prefix_refl _, h.trans h₁, fun y hy => by cases hy⟩
      · exact ⟨_, List.prefix_refl _, h.trans h₁, fun _ _ => rfl⟩

theorem consults_bulletParams (params : Params) (f : FireStep) (t : Turn φ ρ α) :
    Consults params (f.args.getD []) t (t.bulletParams stage params f) := by
  unfold bulletParams
  cases f.args with
  | none => exact consults_nil params _ t
  | some args => exact consults_evalAll stage params args t

theorem reads_heading (params : Params) (spec : DirectionSpec) (t : Turn φ ρ α) :
    Reads [(spec.value, params)] t (t.heading stage params spec).2 := by
  have h := reads_eval stage params spec.value t
  rw [heading]
  rcases hr : t.eval stage params spec.value with ⟨e | x, t₁⟩ <;> rw [hr] at h <;> exact h

theorem reads_pace (params : Params) (spec : SpeedSpec) (t : Turn φ ρ α) :
    Reads [(spec.value, params)] t (t.pace stage params spec).2 := by
  have h := reads_eval stage params spec.value t
  rw [pace]
  rcases hr : t.eval stage params spec.value with ⟨e | x, t₁⟩ <;> rw [hr] at h <;> exact h

/-- The heading of a bullet is taken from the formula that counts, if there is one. -/
theorem reads_bulletHeading (params inner : Params) (f : FireStep) (t : Turn φ ρ α) :
    Reads (f.headingBy params inner) t (t.bulletHeading stage params inner f).2 := by
  unfold FireStep.headingBy bulletHeading
  cases f.fire.direction with
  | some spec => exact reads_heading stage params spec t
  | none =>
    cases f.definition.direction with
    | some spec => exact reads_heading stage inner spec t
    | none => exact .refl t

/-- The speed of a bullet is taken from the formula that counts, if there is one. -/
theorem reads_bulletPace (params inner : Params) (f : FireStep) (t : Turn φ ρ α) :
    Reads (f.paceBy params inner) t (t.bulletPace stage params inner f).2 := by
  unfold FireStep.paceBy bulletPace
  cases f.fire.speed with
  | some spec => exact reads_pace stage params spec t
  | none =>
    cases f.definition.speed with
    | some spec => exact reads_pace stage inner spec t
    | none => exact .refl t

end Turn

end Barrage
