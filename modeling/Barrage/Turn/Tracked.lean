import Barrage.Turn.Scopes

/-!
# Trees that agree with what happened

The scopes of a tree hold values that may be out of date. Those on the way to what is evaluated are not.

* `Scope.Agrees`, `Step.Tracked`: what a tree holds is what the notes tell: each scope that can be seen
  holds the values of the one evaluation of its arguments that still holds, or none if there is none; and
  each step holds the one value that it settled on.
* `Step.tracked_iff`, `Step.tracked_leaf`: this is so of a step if it is so of what is below it.
* `Step.Tracked.expire`, `Step.Tracked.reset`, `Step.tracked_blank`, `Step.Tracked.finish`: what the changes
  from outside do to it.
-/

namespace Barrage

/-- A scope in surroundings with the given parameters holds what the evaluations that still hold say. -/
def Scope.Agrees (outer : Params) (ds : List (Params × Params)) : Scope → Prop
  | shared => True
  | derived _ values true => ds = [(outer, values)]
  | derived _ _ false => ds = []

theorem Scope.agrees_nil {outer : Params} {scope : Scope} (h : scope.expire = scope) :
    scope.Agrees outer [] := by
  rcases scope with _ | ⟨args, values, _ | _⟩
  · trivial
  · rfl
  · cases h

/-- A tree at a place, with the parameters around it, holds what the notes tell. -/
structure Step.Tracked (place : Place) (outer : Params) (h : List Note) (s : Step) : Prop where
  scopes : ∀ p params scope, s.scopeAt? outer p = some (params, scope) →
    scope.Agrees params (derivations (place ++ p) h)
  settled : ∀ p x, s.settledAt? p = some x → settlings (place ++ p) h = x.toList

namespace Step

variable {place : Place} {outer params : Params} {h ns : List Note} {s c : Step} {i : Nat}

theorem Tracked.scope (hs : s.Tracked place outer h) : s.scope.Agrees outer (derivations place h) := by
  have hscope := hs.scopes [] outer s.scope rfl
  rwa [List.append_nil] at hscope

theorem Tracked.settlings (hs : s.Tracked place outer h) :
    Barrage.settlings place h = s.settled?.toList := by
  have hsettled := hs.settled [] s.settled? rfl
  rwa [List.append_nil] at hsettled

/-- What is settled below a step. -/
theorem Tracked.settled_child (hs : s.Tracked place outer h) (hc : s.child? i = some c) {p : Place}
    {x : Option Settled} (hx : c.settledAt? p = some x) :
    Barrage.settlings (place ++ [i] ++ p) h = x.toList := by
  rw [List.append_assoc]
  refine hs.settled (i :: p) x ?_
  rw [settledAt?, sub?_cons hc]
  exact hx

/-- A tree with a scope that can be seen through agrees with the notes if all parts of it do. -/
theorem tracked_iff (hseen : s.scope.seen? outer = some params) :
    s.Tracked place outer h ↔ s.scope.Agrees outer (derivations place h) ∧
      Barrage.settlings place h = s.settled?.toList ∧
      ∀ i c, s.child? i = some c → c.Tracked (place ++ [i]) params h := by
  constructor
  · intro hs
    refine ⟨hs.scope, hs.settlings, fun i c hc => ⟨fun p u scope hp => ?_, fun p x hx => ?_⟩⟩
    · rw [List.append_assoc]
      refine hs.scopes (i :: p) u scope ?_
      rw [scopeAt?, hseen, hc]
      exact hp
    · exact hs.settled_child hc hx
  · rintro ⟨hscope, hsettled, hchild⟩
    -- A place is the root or below a child.
    refine ⟨fun p u scope hp => ?_, fun p x hx => ?_⟩
    · cases p with
      | nil =>
        cases hp
        rwa [List.append_nil]
      | cons i p =>
        rw [scopeAt?, hseen] at hp
        cases hc : s.child? i with
        | none => simp [hc] at hp
        | some c =>
          rw [hc] at hp
          have := (hchild i c hc).scopes p u scope hp
          rwa [List.append_assoc] at this
    · cases p with
      | nil =>
        cases hx
        rwa [List.append_nil]
      | cons i p =>
        cases hc : s.child? i with
        | none => simp [settledAt?, sub?, hc] at hx
        | some c =>
          rw [settledAt?, sub?_cons hc] at hx
          have := (hchild i c hc).settled p x hx
          rwa [List.append_assoc] at this

/-- A leaf agrees with the notes if its own scope and its own value do. -/
theorem tracked_leaf (hleaf : ∀ i, s.child? i = none) :
    s.Tracked place outer h ↔ s.scope.Agrees outer (derivations place h) ∧
      Barrage.settlings place h = s.settled?.toList := by
  refine ⟨fun hs => ⟨hs.scope, hs.settlings⟩, ?_⟩
  rintro ⟨hscope, hsettled⟩
  refine ⟨fun p u scope hp => ?_, fun p x hx => ?_⟩
  · cases p with
    | nil =>
      cases hp
      rwa [List.append_nil]
    | cons i p => simp [scopeAt?, hleaf] at hp
  · cases p with
    | nil =>
      cases hx
      rwa [List.append_nil]
    | cons i p => simp [settledAt?, sub?, hleaf] at hx

/-- A sequence whose scope can be seen through agrees with the notes if its steps do. -/
theorem tracked_sequence {s : Sequence Step} (hseen : s.scope.seen? outer = some params) :
    (Step.sequence s).Tracked place outer h ↔ s.scope.Agrees outer (derivations place h) ∧
      Barrage.settlings place h = [] ∧
      ∀ (i : Nat) (c : Step), s.children[i]? = some c → c.Tracked (place ++ [i]) params h :=
  tracked_iff (s := .sequence s) hseen

/-- A loop agrees with the notes if its count and its body do. -/
theorem tracked_loop {l : LoopStep Step} :
    (Step.loop l).Tracked place outer h ↔
      Barrage.settlings place h = (l.target.map Settled.count).toList ∧
      (Step.sequence l.body).Tracked (place ++ [0]) outer h := by
  have hseen : (Step.loop l).scope.seen? outer = some outer := rfl
  rw [tracked_iff hseen]
  constructor
  · rintro ⟨-, hcount, hchild⟩
    exact ⟨hcount, hchild 0 _ rfl⟩
  · rintro ⟨hcount, hbody⟩
    refine ⟨trivial, hcount, fun i c hc => ?_⟩
    cases i with
    | zero =>
      cases hc
      exact hbody
    | succ i => cases hc

/-- Notes that do not count at a place or below it do not matter to a tree there. -/
theorem Tracked.append (hs : s.Tracked place outer h) (hns : ∀ p, ∀ n ∈ ns, n.Spares (place ++ p)) :
    s.Tracked place outer (h ++ ns) where
  scopes p params scope hp := by
    rw [derivations_append (hns p)]
    exact hs.scopes p params scope hp
  settled p x hx := by
    rw [settlings_append (hns p)]
    exact hs.settled p x hx

/-- Notes that count nowhere do not matter to a tree. -/
theorem Tracked.passing (hs : s.Tracked place outer h) (hns : ∀ n ∈ ns, n.Passing) :
    s.Tracked place outer (h ++ ns) :=
  hs.append fun _ n hn => (hns n hn).spares _

/-- What happens below another number does not matter to a tree. -/
theorem Tracked.beside {j : Nat} (hs : s.Tracked (place ++ [j]) outer h)
    (hns : ∀ n ∈ ns, n.Inside (place ++ [i])) (hij : i ≠ j) :
    s.Tracked (place ++ [j]) outer (h ++ ns) :=
  hs.append fun p n hn => (hns n hn).spares_beside hij p

/-- The parameters around a tree have changed, so no evaluation in it holds any longer. -/
theorem Tracked.expire {h' : List Note} (hsettled : ∀ p x, s.settledAt? p = some x →
    Barrage.settlings (place ++ p) h' = x.toList) (hd : ∀ p, derivations (place ++ p) h' = []) :
    s.expire.Tracked place outer h' where
  scopes p params scope hp := by
    rw [hd]
    exact Scope.agrees_nil (scopeAt?_expire hp)
  settled p x hx := hsettled p x (by rwa [settledAt?_expire] at hx)

/-- A tree that was reset agrees with the notes if nothing holds any longer. -/
theorem tracked_reset (s : Step) (outer : Params) (hd : ∀ p, derivations (place ++ p) h = [])
    (hs : ∀ p, Barrage.settlings (place ++ p) h = []) : s.reset.Tracked place outer h where
  scopes p params scope hp := by
    rw [hd]
    exact Scope.agrees_nil (scopeAt?_reset hp)
  settled p x hx := by
    rw [hs, settledAt?_reset hx]
    rfl

/-- A tree that was not entered agrees with the notes if nothing happened in it. -/
theorem tracked_blank (s : Step) (outer : Params) (hd : ∀ p, derivations (place ++ p) h = [])
    (hs : ∀ p, Barrage.settlings (place ++ p) h = []) : s.blank.Tracked place outer h where
  scopes p params scope hp := by
    rw [hd]
    exact Scope.agrees_nil (scopeAt?_blank hp)
  settled p x hx := by
    rw [hs, settledAt?_blank hx]
    rfl

/-- Giving up on a leaf does not matter. -/
theorem Tracked.finish (hs : s.Tracked place outer h) : s.finish.Tracked place outer h where
  scopes p params scope hp := hs.scopes p params scope (by rwa [scopeAt?_finish] at hp)
  settled p x hx := hs.settled p x (by rwa [settledAt?_finish] at hx)

end Step

end Barrage
