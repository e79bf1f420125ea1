import Barrage.Turn.Advance

/-!
# Programs

A program is a step that a host drives by itself, without a runner: the step, the builder it comes
from, and the parameters it was entered with.

* `Program.ofNode`, `Program.ofAction`, `Program.ofBullet`: a new program.
* `Program.execute`: one turn of a sequence, with the iterations that its frame still holds; whatever a
  turn that fails has made is lost to the host.
* `Program.update`, `Program.reset`, `Program.finish`: changes from outside.
-/

namespace Barrage

/-- A step with the builder it comes from and the parameters it was entered with. -/
structure Program where
  builder : Builder
  params : Params
  step : Step

/-- What a turn of a program gave its host. -/
structure ProgramResult (α : Type) where
  spawned : List (Spawn α)
  removed : Bool
  last : LastFired

/-- How a turn of a program ended: there was no sequence to advance, it was done already, it failed,
or it gave a result. -/
inductive ProgramOutcome (α : Type) where
  | noSequence
  | done
  | failed (error : StepError)
  | advanced (result : ProgramResult α)

/-- A program after a turn, with all that the turn changed. -/
structure Executed (φ ρ α : Type) where
  program : Program
  owner : Bullet α
  factory : φ
  source : ρ
  /-- Iterations that loops may still start in the frame. -/
  budget : Nat
  outcome : ProgramOutcome α
  journal : Array Event

namespace Program

/-- The program of one node. -/
def ofNode (builder : Builder) (node : Node) (params : Params) : Except StepError Program :=
  (fun step => ⟨builder, params, step⟩) <$> builder.node node

/-- The program of an action that is entered directly. -/
def ofAction (builder : Builder) (action : Action Node) (params : Params) :
    Except StepError Program :=
  (fun s => ⟨builder, params, .sequence s⟩) <$> builder.action action

/-- The program of what a bullet definition does. -/
def ofBullet (builder : Builder) (definition : BulletDef Node) (params : Params) :
    Except StepError Program :=
  (fun s => ⟨builder, params, .sequence s⟩) <$> builder.bullet definition

/-- The program with other parameters. -/
def update (p : Program) (params : Params) : Program :=
  { p with params, step := p.step.expire }

/-- The program back at its start. -/
def reset (p : Program) : Program := { p with step := p.step.reset }

/-- The program with its active leaf given up on. -/
def finish (p : Program) : Program := { p with step := p.step.finish }

/-- The iterations that a frame holds before a runner has its tick on it. -/
def unbounded : Nat := 2 ^ 64 - 1

variable {φ ρ α : Type} [RandomSource ρ] [BulletFactory φ α]

/-- One turn of a program that is a sequence, with the iterations that its frame still holds. -/
def execute (p : Program) (frame : Frame) (owner : Bullet α) (factory : φ) (source : ρ)
    (last : LastFired) (budget : Nat := unbounded) : Executed φ ρ α :=
  match p.step with
  | .sequence s =>
    if s.isDone then ⟨p, owner, factory, source, budget, .done, #[]⟩
    else
      let o := s.advance ⟨p.builder, frame⟩ p.params
        (Turn.start owner factory source budget last)
      let t := o.turn
      let outcome := match o.error with
        | some e => .failed e
        | none => .advanced ⟨t.spawned.toList, t.removed, t.last⟩
      ⟨{ p with step := .sequence o.step }, t.owner, t.factory, t.source, t.budget, outcome,
        t.journal⟩
  | _ => ⟨p, owner, factory, source, budget, .noSequence, #[]⟩

end Program

end Barrage
