import Barrage.Turn.Basic

/-!
# Steps that take time

A pause and a mutation settle on their values when they are entered and keep them to the end.

* `WaitStep.dispatch`: one turn of a pause.
* `Turn.settle`: the glide of a mutation; its term is evaluated before its value.
* `Glide.valueAt`: where a glide stands after some time.
* `MutationStep.dispatch`: one turn of a mutation, which writes the owner's heading or speed.
-/

namespace Barrage

variable {φ ρ α : Type} [RandomSource ρ]

/-- The duration of a pause, evaluated if it was not. -/
def Turn.pauseFor (stage : Stage) (params : Params) (w : WaitStep) (t : Turn φ ρ α) :
    Except EvalError Scalar × Turn φ ρ α :=
  match w.duration with
  | some duration => (.ok duration, t)
  | none => t.eval stage params w.length

/-- One turn of a pause. -/
def WaitStep.dispatch (stage : Stage) (params : Params) (w : WaitStep) (t : Turn φ ρ α) :
    Outcome WaitStep (Turn φ ρ α) :=
  match (t.log (.began .wait)).pauseFor stage params w with
  | (.error e, t) => ⟨w, t, some (.evaluation e)⟩
  | (.ok duration, t) =>
    let w' := { w with duration := some duration, elapsed := w.elapsed + stage.frame.delta }
    ⟨w', t.leave .wait (!w'.isDone) (some ⟨w.elapsed, duration⟩), none⟩

/-- The heading at which a change of heading ends. Aimed and absolute ones turn the shorter way; a
sequence is a rate per unit of time. -/
def DirectionKind.goal (kind : DirectionKind) (start aim value duration : Scalar) : Scalar :=
  match kind with
  | .aim => start + shortestArc start (aim + value)
  | .absolute => start + shortestArc start value
  | .relative => start + value
  | .sequence => start + value * duration.atLeastZero

/-- The speed at which a change of speed ends; a sequence is a rate per unit of time. -/
def SpeedKind.goal (kind : SpeedKind) (start value duration : Scalar) : Scalar :=
  match kind with
  | .absolute => value
  | .relative => start + value
  | .sequence => start + value * duration.atLeastZero

namespace Steering

/-- The formula of the value that a mutation leads to. -/
def value : Steering → Formula
  | direction spec => spec.value
  | speed spec => spec.value

/-- The glide of a mutation that is entered now. -/
def glide (stage : Stage) (t : Turn φ ρ α) (duration value : Scalar) : Steering → Glide
  | direction spec =>
    let start := t.owner.direction
    ⟨start, spec.kind.goal start (t.aim stage) value duration, duration⟩
  | speed spec =>
    let start := t.owner.speed
    ⟨start, spec.kind.goal start value duration, duration⟩

/-- The owner with a value written: a heading is wrapped into one turn. -/
def write (owner : Bullet α) (value : Scalar) : Steering → Bullet α
  | direction _ => { owner with direction := normalizeDegrees value }
  | speed _ => { owner with speed := value }

end Steering

/-- Where a glide stands after some time: at its goal once its time is over, or at once if it takes
none. -/
def Glide.valueAt (g : Glide) (elapsed : Scalar) : Scalar :=
  let part := if g.duration ≤ 0 then 1 else (elapsed / g.duration).atMostOne
  g.start + (g.goal - g.start) * part

/-- The glide of a mutation, settled if it was not. -/
def Turn.settle (stage : Stage) (params : Params) (m : MutationStep) (t : Turn φ ρ α) :
    Except EvalError Glide × Turn φ ρ α :=
  match m.glide with
  | some glide => (.ok glide, t)
  | none =>
    match t.eval stage params m.term with
    | (.error e, t) => (.error e, t)
    | (.ok duration, t) =>
      match t.eval stage params m.steering.value with
      | (.error e, t) => (.error e, t)
      | (.ok value, t) => (.ok (m.steering.glide stage t duration value), t)

/-- One turn of a mutation. -/
def MutationStep.dispatch (stage : Stage) (params : Params) (m : MutationStep) (t : Turn φ ρ α) :
    Outcome MutationStep (Turn φ ρ α) :=
  match (t.log (.began .mutation)).settle stage params m with
  | (.error e, t) => ⟨m, t, some (.evaluation e)⟩
  | (.ok glide, t) =>
    let m' := { m with glide := some glide, elapsed := m.elapsed + stage.frame.delta }
    let t := { t with owner := m.steering.write t.owner (glide.valueAt m'.elapsed) }.log .steered
    ⟨m', t.leave .mutation (!m'.isDone) (some ⟨m.elapsed, glide.duration⟩), none⟩

end Barrage
