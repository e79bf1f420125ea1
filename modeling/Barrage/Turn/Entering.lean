import Barrage.Turn.Tracked
import Barrage.Walk.Turn

/-!
# Entering a scope

* `Turn.resolve_cases`: a scope is evaluated when it is entered, or it was.
* `Entered`, `Turn.entered`: what comes of entering a scope that agrees with the notes.
-/

namespace Barrage

variable {φ ρ α : Type} [RandomSource ρ] {tree : Step} {stage : Stage} {place : Place}
  {outer params : Params} {before ns : List Note}

variable {scope scope' : Scope} {isNew : Bool} {t t' : Turn φ ρ α}

theorem Scope.mem_args_of_pending {f : Formula} (h : f ∈ scope.pending) : f ∈ scope.args?.getD [] := by
  rcases scope with _ | ⟨args, values, _ | _⟩
  · cases h
  · exact h
  · cases h

theorem Turn.yields_evalAll {fs : List Formula} {values : Params}
    (h : t.evalAll stage outer fs = (.ok values, t')) : Yields outer fs values := by
  have hrun := run_evalAll stage outer t.owner fs t
  rw [h] at hrun
  exact ⟨ρ, inferInstance, stage.frame.rank, t.source, t'.source, hrun⟩

/-- Entering a scope evaluates its arguments if they have to be, and else does nothing. -/
theorem Turn.resolve_cases (h : t.resolve stage outer scope = (.ok (scope', isNew), t')) :
    (isNew = false ∧ scope' = scope ∧ scope.pending = [] ∧
      scope.seen? outer = some (scope.params outer)) ∨
    ∃ args old values, scope = .derived args old false ∧ scope' = .derived args values true ∧
      isNew = true ∧ Yields outer args values := by
  rcases scope with _ | ⟨args, old, _ | _⟩
  · cases h
    exact .inl ⟨rfl, rfl, rfl, rfl⟩
  · rw [resolve] at h
    rcases hr : t.evalAll stage outer args with ⟨e | values, t₁⟩ <;> rw [hr] at h <;> cases h
    exact .inr ⟨args, old, values, rfl, rfl, rfl, yields_evalAll hr⟩
  · cases h
    exact .inl ⟨rfl, rfl, rfl, rfl⟩

/-- A scope was entered, as the notes from the first to the second ones tell. That was in scope, the scope
agrees with the notes, and the parameters below the place are its own. If it was evaluated now, no
evaluation below it holds any longer, else nothing happened. -/
structure Entered (tree : Step) (place : Place) (outer : Params) (before after : List Note)
    (scope scope' : Scope) (isNew : Bool) : Prop where
  agrees : scope'.Agrees outer (derivations place after)
  seen : scope'.seen? outer = some (scope'.params outer)
  vector : ∀ i, tree.vector? after (place ++ [i]) = some (scope'.params outer)
  kept : isNew = false → scope' = scope ∧ after = before
  renewed : isNew = true → ∀ i p, derivations (place ++ i :: p) after = []
  settlings : ∀ p, settlings p after = Barrage.settlings p before

/-- What comes of entering a scope that agrees with the notes. -/
theorem Turn.entered (h : t.resolve stage outer scope = (.ok (scope', isNew), t'))
    (hagrees : scope.Agrees outer (derivations place before))
    (hargs : tree.argsAt? place = scope.args?) (hfs : scope.args?.getD [] ⊆ tree.formulasAt place)
    (hv : tree.vector? before place = some outer) (hs : settlings place before = []) :
    Each (Note.InScope tree) before (scopeNotes place outer scope scope' isNew) ∧
      Entered tree place outer before (before ++ scopeNotes place outer scope scope' isNew) scope scope'
        isNew := by
  rcases resolve_cases h with ⟨rfl, rfl, hpending, hseen⟩ | ⟨args, old, values, rfl, rfl, rfl, hyields⟩
  · -- It was seen through already.
    have hnotes : scopeNotes place outer scope' scope' false = [] := by
      rw [scopeNotes, hpending]
      cases scope' <;> rfl
    rw [hnotes, List.append_nil]
    refine ⟨trivial, hagrees, hseen, fun i => ?_, fun _ => ⟨rfl, rfl⟩, fun h => (by cases h), fun p => rfl⟩
    rcases scope' with _ | ⟨args, values, _ | _⟩
    · exact Step.vector?_shared hargs hv i
    · cases hseen
    · exact Step.vector?_derived hargs hv hagrees i
  · -- Its arguments are evaluated now: first the uses, which derive nothing, then what they came to.
    have hpassing : ∀ n ∈ uses place (against outer args), n.Passing := fun n hn => passing_uses hn
    have hnotes : scopeNotes place outer (.derived args old false) (.derived args values true) true
        = uses place (against outer args) ++ [⟨place, .derived args outer values⟩] := rfl
    have hnone : derivations place (before ++ uses place (against outer args)) = [] :=
      (derivations_append fun n hn => (hpassing n hn).spares _).trans hagrees
    have hvector : tree.vector? (before ++ uses place (against outer args)) place = some outer :=
      (Step.vector?_passing hpassing).trans hv
    have hafter : derivations place (before ++ (uses place (against outer args)
        ++ [⟨place, .derived args outer values⟩])) = [(outer, values)] := by
      rw [← List.append_assoc, derivations_derived, hnone, List.nil_append]
    have hinside : ∀ n ∈ scopeNotes place outer (.derived args old false) (.derived args values true) true,
        n.Inside place := fun n hn => inside_scopeNotes hn
    rw [hnotes] at hinside ⊢
    refine ⟨each_append.2 ⟨each_inScope_uses (fun f hf => hfs hf) hv hs, each_singleton.2 ?_⟩, hafter,
      rfl, fun i => ?_, fun h => (by cases h), fun _ i p => ?_, fun p => ?_⟩
    · exact ⟨hargs, hvector, hnone, hyields⟩
    · exact Step.vector?_derived hargs ((Step.vector?_inside hinside).trans hv) hafter i
    · rw [← List.append_assoc, derivations_below]
    · rw [← List.append_assoc, settlings_derived, settlings_append fun n hn => (hpassing n hn).spares p]

/-- What was evaluated of the arguments of a scope before one of them failed. -/
theorem each_inScope_pending {fs : List Formula} (hinit : fs <+: scope.pending)
    (hfs : scope.args?.getD [] ⊆ tree.formulasAt place) (hv : tree.vector? before place = some outer)
    (hs : settlings place before = []) :
    Each (Note.InScope tree) before (uses place (against outer fs)) :=
  each_inScope_uses (fun _ hf => hfs (Scope.mem_args_of_pending (hinit.subset hf))) hv hs

end Barrage
