import Barrage.Turn.Fire
import Barrage.Turn.Timed

/-!
# Advancing a sequence

A turn of a sequence is one dispatch of the step under its cursor. A leaf has one turn; a nested
sequence is advanced; a loop goes on until its body has to wait, the owner is gone, no iterations are
left, or it is done.

* `LoopStep.drain`: one turn of a loop, given how its body is advanced. Each round uses up an
  iteration, so as many rounds as there are iterations are enough.
* `Step.dispatch`: one turn of a step, given how sequences are advanced.
* `Sequence.advanceWithin`: one turn of a sequence, by recursion on how deep sequences nest in it.
* `Sequence.advance`: the same with the bound taken from the sequence.
-/

namespace Barrage

/-- How a sequence in surroundings with the given parameters has its turn. -/
abbrev Advance (φ ρ α : Type) :=
  Params → Sequence Step → Turn φ ρ α → Outcome (Sequence Step) (Turn φ ρ α)

variable {φ ρ α : Type}

namespace LoopStep

/-- The loop after a round: if its body is done, that was an iteration and the body starts over. -/
def settle (l : LoopStep Step) : LoopStep Step :=
  if l.body.isDone then { l with completed := l.completed + 1, body := l.body.reset } else l

/-- Rounds of a loop that has been entered, at most `rounds` of them. -/
def iterate (advance : Advance φ ρ α) (params : Params) :
    Nat → LoopStep Step → Turn φ ρ α → Outcome (LoopStep Step) (Turn φ ρ α)
  | 0, l, t => if l.isDone then ⟨l, t, none⟩ else ⟨l, t.exhaust, none⟩
  | rounds + 1, l, t =>
    if l.isDone then ⟨l, t, none⟩
    else if t.budget = 0 then ⟨l, t.exhaust, none⟩
    else
      let o := advance params l.body t.spend
      let l := { l with body := o.step }
      match o.error with
      | some e => ⟨l, o.turn, some e⟩
      | none =>
        if o.turn.mustYield then ⟨l.settle, o.turn, none⟩
        else iterate advance params rounds l.settle o.turn

/-- One turn of a loop. -/
def drain [RandomSource ρ] (advance : Advance φ ρ α) (stage : Stage) (params : Params)
    (l : LoopStep Step) (t : Turn φ ρ α) : Outcome (LoopStep Step) (Turn φ ρ α) :=
  match l.target with
  | some _ => iterate advance params t.budget l t
  | none =>
    match t.eval stage params l.times with
    | (.error e, t) => ⟨l, t, some (.evaluation e)⟩
    | (.ok times, t) =>
      iterate advance params t.budget { l with target := some times.count.toNat } t

end LoopStep

/-- One turn of a step, given how sequences have theirs. -/
def Step.dispatch [RandomSource ρ] [BulletFactory φ α] (advance : Advance φ ρ α) (stage : Stage)
    (params : Params) : Step → Turn φ ρ α → Outcome Step (Turn φ ρ α)
  | .sequence s, t => (advance params s t).map .sequence
  | .loop l, t => (l.drain advance stage params t).map .loop
  | .fire f, t => (f.dispatch stage params t).map .fire
  | .mutation m, t => (m.dispatch stage params t).map .mutation
  | .wait w, t => (w.dispatch stage params t).map .wait
  | .vanish _, t =>
    ⟨.vanish true, { t.log (.began .vanish) with removed := true }.leave .vanish false none, none⟩

namespace Sequence

/-- The sequence after a turn of the step under its cursor: the cursor passes a step that is done,
unless the turn ended in an error. -/
def settle (s : Sequence Step) (o : Outcome Step (Turn φ ρ α)) :
    Outcome (Sequence Step) (Turn φ ρ α) :=
  let s := { s with children := s.children.set s.cursor o.step }
  match o.error with
  | some e => ⟨s, o.turn, some e⟩
  | none => ⟨if o.step.isDone then { s with cursor := s.cursor + 1 } else s, o.turn, none⟩

/-- The sequence with its scope evaluated. If its parameters are new, the scopes derived from them
have to be evaluated again. -/
def withScope (s : Sequence Step) (scope : Scope) (isNew : Bool) : Sequence Step :=
  { s with scope, children := if isNew then Step.expireAll s.children else s.children }

variable [RandomSource ρ] [BulletFactory φ α]

/-- One turn of a sequence in which sequences nest at most `levels` deep. A sequence that is done does
nothing. -/
def advanceWithin (stage : Stage) : Nat → Advance φ ρ α
  | 0, _, s, t => ⟨s, t, none⟩
  | levels + 1, outer, s, t =>
    if s.isDone then ⟨s, t, none⟩
    else
      match t.resolve stage outer s.scope with
      | (.error e, t) => ⟨s, t, some (.evaluation e)⟩
      | (.ok (scope, isNew), t) =>
        let s := s.withScope scope isNew
        match s.current? with
        | none => ⟨s, t, none⟩
        | some step =>
          s.settle (step.dispatch (advanceWithin stage levels) stage (scope.params outer) t)

/-- One turn of a sequence in surroundings with the parameters `outer`. -/
def advance (stage : Stage) : Advance φ ρ α := fun outer s t =>
  s.advanceWithin stage s.height outer t

end Sequence

end Barrage
