import Barrage.Step.Forget
import Barrage.Turn.Timed

/-!
# Places in a tree

A place is where something is in a tree of steps. Each sequence and each fire has a scope. What it has
around it is evaluated against the parameters around its place, what it holds against those of its scope.
The body of a loop and the bullet of a fire have places of their own, since they may have arguments.

* `Step.sub?`: the step at a place. `Step.argsAt?`, `Step.formulasAt`: the arguments of the reference at a
  place, and the formulas that are evaluated there; both stay as they were built.
* `Step.scopeAt?`: the scope at a place and the parameters around it, as far as the scopes on the way to it
  hold. `Step.settledAt?`: the value that the step at a place has settled on.
* `Step.scopeAt?_expire`, `Step.scopeAt?_reset`, `Step.scopeAt?_finish` and the like for `settledAt?`: what
  the changes from outside do to these.
-/

namespace Barrage

/-- The numbers of the steps on the way to something in a tree. The body of a loop and the bullet of a fire
have number 0. -/
abbrev Place := List Nat

namespace Scope

/-- The arguments of a scope that has some. -/
def args? : Scope → Option (List Formula)
  | shared => none
  | derived args _ _ => some args

/-- The parameters of a scope in surroundings with the parameters `outer`, unless its arguments have to be
evaluated. -/
def seen? (outer : Params) : Scope → Option Params
  | shared => some outer
  | derived _ values true => some values
  | derived _ _ false => none

@[simp] theorem args?_expire (s : Scope) : s.expire.args? = s.args? := by
  cases s <;> rfl

@[simp] theorem args?_forget (s : Scope) : s.forget.args? = s.args? := by
  rcases s with _ | ⟨args, values, _ | _⟩ <;> rfl

end Scope

/-- A value that a step has settled on when it was entered. -/
inductive Settled where
  | count (n : Nat)
  | pause (duration : Scalar)
  | glide (glide : Glide)
deriving DecidableEq

/-- The formulas of a fire itself. -/
def Fire.formulas (f : Fire Node) : List Formula :=
  f.direction.toList.map (·.value) ++ f.speed.toList.map (·.value)

/-- The formulas of a bullet definition. -/
def BulletDef.formulas (d : BulletDef Node) : List Formula :=
  d.direction.toList.map (·.value) ++ d.speed.toList.map (·.value)

namespace Step

/-! ## One step -/

/-- The scope of a step. Steps without one have the parameters around them. -/
def scope : Step → Scope
  | sequence s => s.scope
  | fire f => f.scope
  | loop _ | mutation _ | wait _ | vanish _ => .shared

/-- The value that a step has settled on. -/
def settled? : Step → Option Settled
  | loop l => l.target.map .count
  | mutation m => m.glide.map .glide
  | wait w => w.duration.map .pause
  | sequence _ | fire _ | vanish _ => none

/-- The formulas that a step evaluates against the parameters around it. -/
def formulas : Step → List Formula
  | sequence s => s.scope.args?.getD []
  | fire f => f.scope.args?.getD []
  | loop l => [l.times]
  | mutation m => [m.term, m.steering.value]
  | wait w => [w.length]
  | vanish _ => []

/-- The step with a number in another one. -/
def child? : Step → Nat → Option Step
  | sequence s, i => s.children[i]?
  | loop l, 0 => some (.sequence l.body)
  | _, _ => none

/-! ## Below a step -/

/-- The step at a place. -/
def sub? : Step → Place → Option Step
  | s, [] => some s
  | s, i :: p => match s.child? i with
    | some c => c.sub? p
    | none => none

/-- The arguments of the reference at a place. -/
def argsAt? : Step → Place → Option (List Formula)
  | s, [] => s.scope.args?
  | fire f, [0] => f.args
  | s, i :: p => match s.child? i with
    | some c => c.argsAt? p
    | none => none

/-- The formulas that are evaluated against the parameters around a place. -/
def formulasAt : Step → Place → List Formula
  | s, [] => s.formulas
  | fire f, [0] => f.args.getD [] ++ f.fire.formulas
  | fire f, [0, 0] => f.definition.formulas
  | s, i :: p => match s.child? i with
    | some c => c.formulasAt p
    | none => []

/-- The scope at a place and the parameters around it, if all scopes on the way to it hold. -/
def scopeAt? : Step → Params → Place → Option (Params × Scope)
  | s, outer, [] => some (outer, s.scope)
  | s, outer, i :: p => match s.scope.seen? outer, s.child? i with
    | some params, some c => c.scopeAt? params p
    | _, _ => none

/-- Whether there is a step at a place, and the value that it has settled on. -/
def settledAt? (s : Step) (p : Place) : Option (Option Settled) := (s.sub? p).map settled?

theorem sub?_cons {s c : Step} {i : Nat} (h : s.child? i = some c) (p : Place) :
    s.sub? (i :: p) = c.sub? p := by
  rw [sub?, h]

@[simp] theorem child?_fire (f : FireStep) (i : Nat) : (fire f).child? i = none := by
  cases i <;> rfl

theorem argsAt?_cons {s c : Step} {i : Nat} (h : s.child? i = some c) (p : Place) :
    s.argsAt? (i :: p) = c.argsAt? p := by
  cases s with
  | fire f => simp at h
  | sequence _ | loop _ | mutation _ | wait _ | vanish _ => rw [argsAt?, h]; simp

theorem formulasAt_cons {s c : Step} {i : Nat} (h : s.child? i = some c) (p : Place) :
    s.formulasAt (i :: p) = c.formulasAt p := by
  cases s with
  | fire f => simp at h
  | sequence _ | loop _ | mutation _ | wait _ | vanish _ => rw [formulasAt, h] <;> simp

section Append

variable {tree s : Step} {place : Place}

/-- What a step has at a place, the whole tree has where the step is. -/
theorem eq_append_of_cons {β : Type} {get : Step → Place → β}
    (hget : ∀ {s c : Step} {i : Nat}, s.child? i = some c → ∀ p, get s (i :: p) = get c p)
    (h : tree.sub? place = some s) (p : Place) : get tree (place ++ p) = get s p := by
  induction place generalizing tree with
  | nil =>
    cases h
    rfl
  | cons i place ih =>
    rw [sub?] at h
    cases hc : tree.child? i with
    | none => simp [hc] at h
    | some c =>
      rw [hc] at h
      rw [List.cons_append, hget hc]
      exact ih h

theorem sub?_append (h : tree.sub? place = some s) (p : Place) :
    tree.sub? (place ++ p) = s.sub? p := eq_append_of_cons sub?_cons h p

theorem argsAt?_append (h : tree.sub? place = some s) (p : Place) :
    tree.argsAt? (place ++ p) = s.argsAt? p := eq_append_of_cons argsAt?_cons h p

theorem formulasAt_append (h : tree.sub? place = some s) (p : Place) :
    tree.formulasAt (place ++ p) = s.formulasAt p := eq_append_of_cons formulasAt_cons h p

end Append

/-! ## Changes from outside -/

section Changes

@[simp] theorem scope_expire (s : Step) : s.expire.scope = s.scope.expire := by
  cases s with
  | sequence s => simp [expire, scope, Sequence.expire_eq]
  | fire _ | loop _ | mutation _ | wait _ | vanish _ => rfl

@[simp] theorem scope_reset (s : Step) : s.reset.scope = s.scope.expire := by
  cases s with
  | sequence s => simp [reset, scope, Sequence.reset_eq]
  | fire _ | loop _ | mutation _ | wait _ | vanish _ => rfl

@[simp] theorem scope_finish (s : Step) : s.finish.scope = s.scope := by
  cases s with
  | sequence s => simp [finish, scope, Sequence.finish_eq]
  | fire _ | loop _ | mutation _ | wait _ | vanish _ => rfl

@[simp] theorem settled?_expire (s : Step) : s.expire.settled? = s.settled? := by
  cases s with
  | loop l => simp [expire, settled?, LoopStep.expire_eq]
  | sequence _ | fire _ | mutation _ | wait _ | vanish _ => rfl

@[simp] theorem settled?_reset (s : Step) : s.reset.settled? = none := by
  cases s with
  | loop l => simp [reset, settled?, LoopStep.reset_eq]
  | sequence _ | fire _ | mutation _ | wait _ | vanish _ => rfl

@[simp] theorem settled?_finish (s : Step) : s.finish.settled? = s.settled? := by
  cases s with
  | loop l => simp [finish, settled?, LoopStep.finish_eq]
  | sequence _ | fire _ | mutation _ | wait _ | vanish _ => rfl

/-- A change of what is around a step goes through to what it holds if its scope has no arguments. -/
theorem child?_expire (s : Step) (i : Nat) : s.expire.child? i
    = if s.scope.isShared then (s.child? i).map expire else s.child? i := by
  cases s with
  | sequence s =>
    by_cases hs : s.scope.isShared = true
    · simp [expire, child?, scope, Sequence.expire_eq, hs]
    · simp [expire, child?, scope, Sequence.expire_eq, hs]
  | loop l =>
    cases i with
    | zero => simp [expire, child?, scope, Scope.isShared, LoopStep.expire_eq]
    | succ i => rfl
  | fire f => simp [expire]
  | mutation _ | wait _ | vanish _ => cases i <;> rfl

@[simp] theorem child?_reset (s : Step) (i : Nat) : s.reset.child? i = (s.child? i).map reset := by
  cases s with
  | sequence s => simp [reset, child?, Sequence.reset_eq]
  | loop l =>
    cases i with
    | zero => simp [reset, child?, LoopStep.reset_eq]
    | succ i => rfl
  | fire _ | mutation _ | wait _ | vanish _ => cases i <;> rfl

theorem child?_finish (s : Step) (i : Nat) :
    s.finish.child? i = s.child? i ∨ s.finish.child? i = (s.child? i).map finish := by
  cases s with
  | sequence s =>
    simp only [finish, child?, Sequence.finish_eq, List.getElem?_modify]
    by_cases hi : s.cursor = i
    · simp [hi]
    · simp [hi]
  | loop l =>
    cases i with
    | zero => exact .inr (by simp [finish, child?, LoopStep.finish_eq])
    | succ i => exact .inl rfl
  | fire _ | mutation _ | wait _ | vanish _ => exact .inl (by cases i <;> rfl)

@[simp] theorem child?_forget (s : Step) (i : Nat) : s.forget.child? i = (s.child? i).map forget := by
  cases s with
  | sequence s => simp [forget, child?, Sequence.forget_eq]
  | loop l =>
    cases i with
    | zero => simp [forget, child?, LoopStep.forget_eq]
    | succ i => rfl
  | fire _ | mutation _ | wait _ | vanish _ => cases i <;> rfl

/-- What a step held when it was built. -/
theorem child?_blank (s : Step) (i : Nat) : s.blank.child? i = (s.child? i).map blank := by
  rw [blank, child?_forget, child?_reset, Option.map_map]
  rfl

/-- What a step held further down when it was built. -/
theorem sub?_blank (s : Step) (p : Place) : s.blank.sub? p = (s.sub? p).map blank := by
  induction p generalizing s with
  | nil => rfl
  | cons i p ih =>
    rw [sub?, sub?, child?_blank]
    cases s.child? i with
    | none => rfl
    | some c => exact ih c

theorem scope_blank (s : Step) : s.blank.scope = s.scope.expire.forget := by
  cases s with
  | sequence s => simp [blank_sequence, Sequence.blank_eq, scope]
  | fire f => simp [blank, reset, forget, FireStep.reset, scope]
  | loop _ | mutation _ | wait _ | vanish _ => rfl

@[simp] theorem args?_scope_blank (s : Step) : s.blank.scope.args? = s.scope.args? := by
  rw [scope_blank, Scope.args?_forget, Scope.args?_expire]

@[simp] theorem settled?_blank (s : Step) : s.blank.settled? = none := by
  cases s with
  | loop l => rw [blank_loop]; rfl
  | sequence _ | fire _ | mutation _ | wait _ | vanish _ => rfl

@[simp] theorem formulas_blank (s : Step) : s.blank.formulas = s.formulas := by
  cases s with
  | sequence s => simp [blank_sequence, Sequence.blank_eq, formulas]
  | fire f => simp [blank, reset, forget, FireStep.reset, formulas]
  | loop l => simp [blank_loop, formulas]
  | mutation _ | wait _ | vanish _ => rfl

/-! ## What these do further down -/

variable {f : Step → Step}

/-- A change that keeps what steps have settled on, one by one, keeps it everywhere. -/
theorem settledAt?_congr (hf : ∀ s, (f s).settled? = s.settled?)
    (hc : ∀ s i, (f s).child? i = s.child? i ∨ (f s).child? i = (s.child? i).map f) (s : Step)
    (p : Place) : (f s).settledAt? p = s.settledAt? p := by
  unfold settledAt?
  induction p generalizing s with
  | nil => exact congrArg some (hf s)
  | cons i p ih =>
    rw [sub?, sub?]
    rcases hc s i with h | h <;> rw [h]
    cases s.child? i with
    | none => rfl
    | some c => exact ih c

@[simp] theorem settledAt?_expire (s : Step) (p : Place) : s.expire.settledAt? p = s.settledAt? p := by
  refine settledAt?_congr settled?_expire (fun s i => ?_) s p
  rw [child?_expire]
  split
  · exact .inr rfl
  · exact .inl rfl

@[simp] theorem settledAt?_finish (s : Step) (p : Place) : s.finish.settledAt? p = s.settledAt? p :=
  settledAt?_congr settled?_finish child?_finish s p

/-- A change that undoes what steps have settled on, one by one, undoes it everywhere. -/
theorem settledAt?_undone (hf : ∀ s, (f s).settled? = none)
    (hc : ∀ s i, (f s).child? i = (s.child? i).map f) {s : Step} {p : Place} {x : Option Settled}
    (h : (f s).settledAt? p = some x) : x = none := by
  induction p generalizing s with
  | nil =>
    rw [settledAt?, sub?, Option.map_some, hf] at h
    exact (Option.some.inj h).symm
  | cons i p ih =>
    rw [settledAt?, sub?, hc] at h
    cases hs : s.child? i with
    | none => simp [hs] at h
    | some c =>
      rw [hs] at h
      exact ih h

/-- Nothing in a step that was reset has settled on a value. -/
theorem settledAt?_reset {s : Step} {p : Place} {x : Option Settled}
    (h : s.reset.settledAt? p = some x) : x = none :=
  settledAt?_undone settled?_reset child?_reset h

/-- Nothing in a step that was not entered has settled on a value. -/
theorem settledAt?_blank {s : Step} {p : Place} {x : Option Settled}
    (h : s.blank.settledAt? p = some x) : x = none :=
  settledAt?_undone (f := blank) settled?_blank child?_blank h

/-- After a change that goes through to the nearest scopes with arguments and has those evaluated again,
no scope that can be seen holds values. -/
theorem scopeAt?_expired (hf : ∀ s, (f s).scope.expire = (f s).scope)
    (hc : ∀ s i, (f s).scope.isShared = true → (f s).child? i = (s.child? i).map f) {s : Step}
    {outer params : Params} {p : Place} {scope : Scope}
    (h : (f s).scopeAt? outer p = some (params, scope)) : scope.expire = scope := by
  induction p generalizing s outer with
  | nil =>
    cases h
    exact hf s
  | cons i p ih =>
    rw [scopeAt?] at h
    cases hs : (f s).scope with
    | derived args values current =>
      have hscope := hf s
      rw [hs] at hscope h
      cases hscope
      simp [Scope.seen?] at h
    | shared =>
      rw [hs, hc s i (by rw [hs]; rfl)] at h
      cases hchild : s.child? i with
      | none => simp [hchild, Scope.seen?] at h
      | some c =>
        rw [hchild] at h
        exact ih h

/-- When the parameters around a step have changed, the scopes that can be seen hold no values. -/
theorem scopeAt?_expire {s : Step} {outer params : Params} {p : Place} {scope : Scope}
    (h : s.expire.scopeAt? outer p = some (params, scope)) : scope.expire = scope := by
  refine scopeAt?_expired (f := expire) (fun s => ?_) (fun s i hs => ?_) h
  · rw [scope_expire, Scope.expire_expire]
  · rw [scope_expire, Scope.isShared_expire] at hs
    rw [child?_expire, if_pos hs]

/-- The scopes of a step that was reset that can be seen hold no values. -/
theorem scopeAt?_reset {s : Step} {outer params : Params} {p : Place} {scope : Scope}
    (h : s.reset.scopeAt? outer p = some (params, scope)) : scope.expire = scope := by
  refine scopeAt?_expired (f := reset) (fun s => ?_) (fun s i _ => child?_reset s i) h
  rw [scope_reset, Scope.expire_expire]

/-- The scopes of a step that was not entered that can be seen hold no values. -/
theorem scopeAt?_blank {s : Step} {outer params : Params} {p : Place} {scope : Scope}
    (h : s.blank.scopeAt? outer p = some (params, scope)) : scope.expire = scope := by
  refine scopeAt?_expired (f := blank) (fun s => ?_) (fun s i _ => child?_blank s i) h
  rw [scope_blank]
  cases s.scope <;> rfl

@[simp] theorem scopeAt?_finish (s : Step) (outer : Params) (p : Place) :
    s.finish.scopeAt? outer p = s.scopeAt? outer p := by
  induction p generalizing s outer with
  | nil => rw [scopeAt?, scopeAt?, scope_finish]
  | cons i p ih =>
    rw [scopeAt?, scopeAt?, scope_finish]
    rcases child?_finish s i with h | h <;> rw [h]
    cases s.scope.seen? outer with
    | none => rfl
    | some params =>
      cases s.child? i with
      | none => rfl
      | some c => exact ih c params

end Changes

end Step

end Barrage
