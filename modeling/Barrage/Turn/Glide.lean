import Barrage.Formula.Parts
import Barrage.Scalar.Quotient
import Barrage.Turn.Readings

/-!
# Glides

A mutation settles on a glide when it is entered. From then on it depends on nothing but the time it is
credited with.

* `Steering.read`, `Steering.goal`: the property that is steered, and the value it is led to.
* `Steering.Spares`: nothing else of the owner has changed.
* `Glide.valueAt_of_over`: a glide whose time is over stands at its goal, however the time was made up.
* `MutationStep.asks`: what a mutation evaluates when it is entered, as one computation that draws from
  the random source.
* `MutationStep.Call`, `MutationStep.play`: turns of a mutation, each with any surroundings.
* `MutationStep.Glides`: a turn that leads along a glide. `MutationStep.glides_of_asks` is about the first
  one, `MutationStep.glides_of_glide` about any other, `MutationStep.glides_play` about all after the
  first.
* `MutationStep.total`, `MutationStep.elapsed_play`: the time that a mutation is credited with.
-/

namespace Barrage

variable {φ ρ α : Type}

/-! ## What is steered -/

namespace Steering

/-- The property that is steered. -/
def read (owner : Bullet α) : Steering → Scalar
  | direction _ => owner.direction
  | speed _ => owner.speed

/-- A value as the owner keeps it: a heading is wrapped into one turn. -/
def kept (value : Scalar) : Steering → Scalar
  | direction _ => normalizeDegrees value
  | speed _ => value

/-- The value that the property is led to. -/
def goal (owner : Bullet α) (target : Point) (duration value : Scalar) : Steering → Scalar
  | direction spec =>
    spec.kind.goal owner.direction (owner.position.headingTo target) value duration
  | speed spec => spec.kind.goal owner.speed value duration

/-- Nothing but the property that is steered has changed. -/
def Spares (owner owner' : Bullet α) : Steering → Prop
  | direction _ => owner' = { owner with direction := owner'.direction }
  | speed _ => owner' = { owner with speed := owner'.speed }

@[simp] theorem read_write (s : Steering) (owner : Bullet α) (value : Scalar) :
    s.read (s.write owner value) = s.kept value := by
  cases s <;> rfl

theorem spares_write (s : Steering) (owner : Bullet α) (value : Scalar) :
    s.Spares owner (s.write owner value) := by
  cases s <;> rfl

theorem glide_eq (s : Steering) (stage : Stage) (t : Turn φ ρ α) (duration value : Scalar) :
    s.glide stage t duration value
      = ⟨s.read t.owner, s.goal t.owner stage.frame.target duration value, duration⟩ := by
  cases s <;> rfl

end Steering

/-- A glide whose time is over stands at its goal. -/
theorem Glide.valueAt_of_over {g : Glide} {elapsed : Scalar} (hf : g.duration.isFinite = true)
    (h : g.duration ≤ elapsed) : g.valueAt elapsed = g.start + (g.goal - g.start) * 1 := by
  unfold valueAt
  by_cases hd : g.duration ≤ 0
  · rw [if_pos hd]
  · rw [if_neg hd, Scalar.atMostOne_div hf hd h]

/-! ## The turns of a mutation -/

namespace MutationStep

/-- What a mutation evaluates when it is entered: its term, then its value. -/
def asks [RandomSource ρ] (rank : Scalar) (params : Params) (m : MutationStep) :
    Draw ρ (Scalar × Scalar) := do
  let duration ← m.term.eval rank params
  let value ← m.steering.value.eval rank params
  pure (duration, value)

/-- What a mutation is given when it has its turn. -/
structure Call (φ ρ α : Type) where
  stage : Stage
  params : Params
  turn : Turn φ ρ α

variable [RandomSource ρ]

/-- What comes of a turn. -/
def call (c : Call φ ρ α) (m : MutationStep) : Outcome MutationStep (Turn φ ρ α) :=
  m.dispatch c.stage c.params c.turn

/-- What comes of some turns, each of which finds the mutation as the one before left it. -/
def play : List (Call φ ρ α) → MutationStep → List (Outcome MutationStep (Turn φ ρ α))
  | [], _ => []
  | c :: calls, m => m.call c :: play calls (m.call c).step

/-- The time of some turns, added up in order. -/
def total (calls : List (Call φ ρ α)) : Scalar := calls.foldl (fun x c => x + c.stage.frame.delta) 0

/-- A turn leads along a glide: it does not fail, evaluates some formulas and writes the owner. -/
structure Glides (s : Steering) (g : Glide) (fs : List Formula) (source : ρ) (c : Call φ ρ α)
    (o : Outcome MutationStep (Turn φ ρ α)) : Prop where
  error : o.error = none
  steering : o.step.steering = s
  glide : o.step.glide = some g
  owner : o.turn.owner = s.write c.turn.owner (g.valueAt o.step.elapsed)
  spares : s.Spares c.turn.owner o.turn.owner
  source : o.turn.source = source
  events : ∃ running clock, c.turn.Logs o.turn (.began .mutation ::
    (against c.params fs).map (fun u => .evaluated u.1 u.2) ++ [.steered, .ended .mutation running clock])

section Glides

omit [RandomSource ρ]

variable {s : Steering} {g : Glide} {fs : List Formula} {source : ρ} {c : Call φ ρ α}
  {o : Outcome MutationStep (Turn φ ρ α)}

theorem Glides.isDone_iff (h : Glides s g fs source c o) :
    o.step.isDone = true ↔ g.duration ≤ o.step.elapsed := by
  rw [isDone, h.glide]
  exact decide_eq_true_iff

/-- When its time is over the owner has the goal of the glide. -/
theorem Glides.read_of_isDone (h : Glides s g fs source c o) (hf : g.duration.isFinite = true)
    (hd : o.step.isDone = true) :
    s.read o.turn.owner = s.kept (g.start + (g.goal - g.start) * 1) := by
  rw [h.owner, Steering.read_write, Glide.valueAt_of_over hf (h.isDone_iff.1 hd)]

end Glides

/-- The evaluations behind what a mutation asks for. -/
theorem asks_ok {m : MutationStep} {rank duration value : Scalar} {params : Params}
    {source source' : ρ}
    (h : (m.asks rank params).run source = (.ok (duration, value), source')) :
    ∃ source₁, (m.term.eval rank params).run source = (.ok duration, source₁) ∧
      (m.steering.value.eval rank params).run source₁ = (.ok value, source') := by
  rcases ht : (m.term.eval rank params).run source with ⟨e | d, source₁⟩
  · rw [asks, run_error ht] at h
    cases h
  · rw [asks, run_ok ht] at h
    rcases hv : (m.steering.value.eval rank params).run source₁ with ⟨e | v, source₂⟩
    · rw [run_error hv] at h
      cases h
    · rw [run_ok hv] at h
      cases h
      exact ⟨source₁, rfl, hv⟩

theorem isFinite_of_asks {m : MutationStep} {rank duration value : Scalar} {params : Params}
    {source source' : ρ}
    (h : (m.asks rank params).run source = (.ok (duration, value), source')) :
    duration.isFinite = true := by
  obtain ⟨_, hterm, -⟩ := asks_ok h
  exact Formula.isFinite_of_eval hterm

theorem eval_ok {stage : Stage} {params : Params} {f : Formula} {t : Turn φ ρ α} {x : Scalar}
    {source : ρ} (h : (f.eval stage.frame.rank params).run t.source = (.ok x, source)) :
    t.eval stage params f = (.ok x, { t with source }.log (.evaluated f params)) := by
  rw [Turn.eval, h]

/-- What a mutation settles on when it is entered. -/
theorem settle_of_asks {m : MutationStep} (hglide : m.glide = none) {stage : Stage} {params : Params}
    {t : Turn φ ρ α} {duration value : Scalar} {source : ρ}
    (h : (m.asks stage.frame.rank params).run t.source = (.ok (duration, value), source)) :
    ∃ t', t.settle stage params m = (.ok ⟨m.steering.read t.owner,
        m.steering.goal t.owner stage.frame.target duration value, duration⟩, t') ∧
      t'.source = source := by
  obtain ⟨source₁, hterm, hvalue⟩ := asks_ok h
  let t₁ : Turn φ ρ α := { t with source := source₁ }.log (.evaluated m.term params)
  let t₂ : Turn φ ρ α := { t₁ with source }.log (.evaluated m.steering.value params)
  have ht : t.eval stage params m.term = (.ok duration, t₁) := eval_ok hterm
  have hv : t₁.eval stage params m.steering.value = (.ok value, t₂) := eval_ok hvalue
  refine ⟨t₂, ?_, rfl⟩
  rw [Turn.settle, hglide]
  simp only [ht, hv, Steering.glide_eq]
  rfl

/-- A turn that settles on a glide leads along it. -/
theorem glides_of_settle {m : MutationStep} {c : Call φ ρ α} {g : Glide} {fs : List Formula}
    {t : Turn φ ρ α}
    (hsettle : (c.turn.log (.began .mutation)).settle c.stage c.params m = (.ok g, t))
    (hreads : (c.turn.log (.began .mutation)).Reads (against c.params fs) t) :
    Glides m.steering g fs t.source c (m.call c) := by
  let m' : MutationStep := { m with glide := some g, elapsed := m.elapsed + c.stage.frame.delta }
  let w : Turn φ ρ α := { t with owner := m.steering.write t.owner (g.valueAt m'.elapsed) }
  let clock : Clock := ⟨m.elapsed, g.duration⟩
  have hcall : m.call c
      = ⟨m', (w.log .steered).leave .mutation (!m'.isDone) (some clock), none⟩ := by
    rw [call, dispatch, hsettle]
  have howner : t.owner = c.turn.owner := hreads.draws.owner
  have hsteered : t.Logs (w.log .steered) [.steered] := Turn.logs_log w .steered
  have hended : (w.log .steered).Logs
      ((w.log .steered).leave .mutation (!m'.isDone) (some clock))
      [.ended .mutation (!m'.isDone) (some clock)] := Turn.logs_log _ _
  rw [hcall]
  refine ⟨rfl, rfl, rfl, ?_, ?_, rfl, !m'.isDone, some clock, ?_⟩
  · rw [← howner]
    rfl
  · rw [← howner]
    exact m.steering.spares_write _ _
  · have hall := (((c.turn.logs_log (.began .mutation)).trans hreads.logs).trans hsteered).trans hended
    simpa using hall

/-- The first turn evaluates the formulas of a mutation and settles on a glide. -/
theorem glides_of_asks {m : MutationStep} (hglide : m.glide = none) {c : Call φ ρ α}
    {duration value : Scalar} {source : ρ}
    (h : (m.asks c.stage.frame.rank c.params).run c.turn.source = (.ok (duration, value), source)) :
    Glides m.steering ⟨m.steering.read c.turn.owner,
        m.steering.goal c.turn.owner c.stage.frame.target duration value, duration⟩
      [m.term, m.steering.value] source c (m.call c) := by
  have hentered : ((m.asks c.stage.frame.rank c.params).run
      (c.turn.log (.began .mutation)).source) = (.ok (duration, value), source) := h
  obtain ⟨t, hsettle, rfl⟩ := settle_of_asks hglide hentered
  have hconsults := Turn.consults_settle c.stage c.params m (c.turn.log (.began .mutation))
  rw [hsettle, pending, hglide] at hconsults
  exact glides_of_settle hsettle (hconsults.reads rfl)

/-- Any other turn leads along the glide that the mutation has, and evaluates nothing. -/
theorem glides_of_glide {m : MutationStep} {g : Glide} (hglide : m.glide = some g)
    (c : Call φ ρ α) : Glides m.steering g [] c.turn.source c (m.call c) := by
  have hsettle : (c.turn.log (.began .mutation)).settle c.stage c.params m
      = (.ok g, c.turn.log (.began .mutation)) := by
    rw [Turn.settle, hglide]
  have hreads : (c.turn.log (.began .mutation)).Reads (against c.params [])
      (c.turn.log (.began .mutation)) := .refl _
  have h := glides_of_settle hsettle hreads
  exact h

/-- A mutation stays on its glide, whatever becomes of its surroundings. -/
theorem glides_play {m : MutationStep} {g : Glide} (hglide : m.glide = some g)
    (calls : List (Call φ ρ α)) :
    List.Forall₂ (fun c o => Glides m.steering g [] c.turn.source c o) calls (play calls m) := by
  induction calls generalizing m with
  | nil => exact .nil
  | cons c calls ih =>
    have h := glides_of_glide hglide c
    refine .cons h ?_
    have hrest := ih h.glide
    rwa [h.steering] at hrest

/-- A turn that does not fail adds its time. -/
theorem elapsed_call {m : MutationStep} {c : Call φ ρ α} (h : (m.call c).error = none) :
    (m.call c).step.elapsed = m.elapsed + c.stage.frame.delta := by
  rcases m.dispatch_cases c.stage c.params c.turn with ⟨e, t, -, -, hc⟩ | ⟨g, t, m', -, -, rfl, hc⟩
  · rw [call, hc] at h
    cases h
  · rw [call, hc]

/-- Turns that do not fail add up their times. -/
theorem elapsed_play {m : MutationStep} {calls : List (Call φ ρ α)}
    {o : Outcome MutationStep (Turn φ ρ α)} (hok : ∀ o ∈ play calls m, o.error = none)
    (ho : (play calls m).getLast? = some o) :
    o.step.elapsed = calls.foldl (fun x c => x + c.stage.frame.delta) m.elapsed := by
  induction calls generalizing m with
  | nil => cases ho
  | cons c calls ih =>
    have hc := elapsed_call (hok _ List.mem_cons_self)
    rw [List.foldl_cons, ← hc]
    cases calls with
    | nil =>
      obtain rfl := Option.some.inj ho
      rfl
    | cons c' calls => exact ih (fun o h => hok o (List.mem_cons_of_mem _ h)) ho

end MutationStep

end Barrage
