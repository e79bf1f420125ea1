import Barrage.Turn.NoteLaws
import Mathlib.Data.List.DropRight

/-!
# Scopes by what happened

What the parameters at a place are can be told from the notes of all that happened, without a look at the
values that the tree holds.

* `derivations`: the evaluations of the arguments of the reference at a place that still hold: those since
  the tree was given new parameters, something around the place started over or a reference around it was
  evaluated.
* `Step.vector?`: the parameters at a place: those around the tree, and from each reference on the way down
  the values of its arguments, evaluated once against the parameters around it.
* `settlings`: the values that the step at a place has settled on since it started over.
* `Note.InScope`: what is evaluated at a place is a formula of that place, against the parameters there.
* `Note.Spares`, `Step.vector?_inside`: notes from elsewhere do not count.
-/

namespace Barrage

/-- What the notes since the last one of some kind tell. -/
def since {β : Type} (ends : Note → Bool) (get : Note → Option β) (h : List Note) : List β :=
  (h.rtakeWhile fun n => !ends n).filterMap get

namespace Note

/-- Whether a note puts an end to the evaluations of the reference at a place: something around it has new
parameters or starts over, or a reference around it was evaluated. -/
def renews (p : Place) (n : Note) : Bool :=
  match n.happening with
  | .surrounded _ | .restarted => n.place <+: p
  | .derived .. => n.place <+: p ∧ n.place ≠ p
  | .used .. | .settled _ | .fired _ => false

/-- The evaluation of the reference at a place that a note tells of: the parameters around the reference,
and what its arguments came to. -/
def derivation? (p : Place) (n : Note) : Option (Params × Params) :=
  match n.happening with
  | .derived _ outer values => if n.place = p then some (outer, values) else none
  | _ => none

/-- Whether a note tells that something at a place or around it starts over. -/
def restarts (p : Place) (n : Note) : Bool :=
  match n.happening with
  | .restarted => n.place <+: p
  | _ => false

/-- The value that the step at a place settled on, as a note tells. -/
def settling? (p : Place) (n : Note) : Option Settled :=
  match n.happening with
  | .settled value => if n.place = p then some value else none
  | _ => none

end Note

/-- The evaluations of the reference at a place that still hold. -/
def derivations (p : Place) (h : List Note) : List (Params × Params) :=
  since (·.renews p) (·.derivation? p) h

/-- The values that the step at a place has settled on since it started over. -/
def settlings (p : Place) (h : List Note) : List Settled := since (·.restarts p) (·.settling? p) h

/-- The parameters around the tree. -/
def surroundings (h : List Note) : Option Params := (h.filterMap Note.surroundings?).getLast?

namespace Step

/-- The parameters inside a place that has the given ones around it. A reference has to have been evaluated
once, and against these. -/
def inner? (tree : Step) (h : List Note) (p : Place) (outer : Params) : Option Params :=
  match tree.argsAt? p, derivations p h with
  | none, _ => some outer
  | some _, [(around, values)] => if around = outer then some values else none
  | some _, _ => none

/-- The parameters around a place whose numbers are given from below. -/
def vectorFrom? (tree : Step) (h : List Note) : List Nat → Option Params
  | [] => surroundings h
  | _ :: q => (tree.vectorFrom? h q).bind (tree.inner? h q.reverse)

/-- The parameters around a place, by what happened. -/
def vector? (tree : Step) (h : List Note) (p : Place) : Option Params := tree.vectorFrom? h p.reverse

end Step

/-- The values are what formulas came to against some parameters, one after the other, with some rank and
some draws. -/
def Yields (params : Params) (fs : List Formula) (values : Params) : Prop :=
  ∃ (ρ : Type) (_ : RandomSource ρ) (rank : Scalar) (source source' : ρ),
    (fs.mapM (Formula.eval rank params) : Draw ρ Params).run source = (.ok values, source')

/-- What happened at a place has to do with the parameters there. A formula that was evaluated belongs to
the place, and it was evaluated against the parameters around the place, by the step there only if that had
not settled on a value. When the arguments of a reference were evaluated, they had not been evaluated since
they had to be. -/
def Note.InScope (tree : Step) (before : List Note) (n : Note) : Prop :=
  match n.happening with
  | .used f params => f ∈ tree.formulasAt n.place ∧ tree.vector? before n.place = some params ∧
      settlings n.place before = []
  | .derived args outer values => tree.argsAt? n.place = some args ∧
      tree.vector? before n.place = some outer ∧ derivations n.place before = [] ∧
      Yields outer args values
  | .settled _ => settlings n.place before = []
  | .surrounded _ | .restarted | .fired _ => True

/-! ## One more note -/

section Since

variable {β : Type} {ends : Note → Bool} {get : Note → Option β}

theorem since_append_singleton (h : List Note) (n : Note) :
    since ends get (h ++ [n]) = if ends n then [] else since ends get h ++ (get n).toList := by
  unfold since
  rw [List.rtakeWhile_concat]
  cases ends n with
  | true => rfl
  | false =>
    rw [Bool.not_false, if_pos rfl, List.filterMap_append, if_neg Bool.false_ne_true]
    cases hg : get n <;> simp [hg]

/-- Notes that neither tell of anything nor put an end to it. -/
theorem since_append {h ns : List Note} (hns : ∀ n ∈ ns, ends n = false ∧ get n = none) :
    since ends get (h ++ ns) = since ends get h := by
  induction ns generalizing h with
  | nil => rw [List.append_nil]
  | cons n rest ih =>
    obtain ⟨⟨hends, hget⟩, hrest⟩ := List.forall_mem_cons.1 hns
    rw [List.append_cons, ih hrest, since_append_singleton, hends, hget]
    simp

end Since

theorem surroundings_append {h ns : List Note} (hns : ∀ n ∈ ns, n.surroundings? = none) :
    surroundings (h ++ ns) = surroundings h := by
  rw [surroundings, List.filterMap_append, List.filterMap_eq_nil_iff.2 hns, List.append_nil, surroundings]

/-! ## Single notes -/

section Single

variable {place : Place} {outer : Params} (h : List Note)

/-- An evaluation of the arguments of a reference. -/
theorem derivations_derived (args : List Formula) (values : Params) :
    derivations place (h ++ [⟨place, .derived args outer values⟩])
      = derivations place h ++ [(outer, values)] := by
  rw [derivations, since_append_singleton]
  simp [Note.renews, Note.derivation?, derivations]

/-- Below a reference that was evaluated nothing holds any longer. -/
theorem derivations_below (args : List Formula) (values : Params) (i : Nat) (p : Place) :
    derivations (place ++ i :: p) (h ++ [⟨place, .derived args outer values⟩]) = [] := by
  rw [derivations, since_append_singleton]
  simp [Note.renews]

theorem settlings_derived (args : List Formula) (values : Params) (p : Place) :
    settlings p (h ++ [⟨place, .derived args outer values⟩]) = settlings p h := by
  rw [settlings, since_append_singleton]
  simp [Note.restarts, Note.settling?, settlings]

/-- What starts over holds nothing any longer. -/
theorem derivations_restarted (p : Place) :
    derivations (place ++ p) (h ++ [⟨place, .restarted⟩]) = [] := by
  rw [derivations, since_append_singleton]
  simp [Note.renews]

theorem settlings_restarted (p : Place) :
    settlings (place ++ p) (h ++ [⟨place, .restarted⟩]) = [] := by
  rw [settlings, since_append_singleton]
  simp [Note.restarts]

/-- A value that a step settles on. -/
theorem settlings_settled (value : Settled) :
    settlings place (h ++ [⟨place, .settled value⟩]) = settlings place h ++ [value] := by
  rw [settlings, since_append_singleton]
  simp [Note.restarts, Note.settling?, settlings]

theorem settlings_settled_below (value : Settled) (i : Nat) (p : Place) :
    settlings (place ++ i :: p) (h ++ [⟨place, .settled value⟩]) = settlings (place ++ i :: p) h := by
  rw [settlings, since_append_singleton]
  simp [Note.restarts, Note.settling?, settlings]

theorem derivations_settled (value : Settled) (p : Place) :
    derivations p (h ++ [⟨place, .settled value⟩]) = derivations p h := by
  rw [derivations, since_append_singleton]
  simp [Note.renews, Note.derivation?, derivations]

/-- Under new parameters nothing holds any longer, but what was settled stays. -/
theorem derivations_surrounded (params : Params) (p : Place) :
    derivations p (h ++ [⟨[], .surrounded params⟩]) = [] := by
  rw [derivations, since_append_singleton]
  simp [Note.renews]

theorem settlings_surrounded (params : Params) (p : Place) :
    settlings p (h ++ [⟨[], .surrounded params⟩]) = settlings p h := by
  rw [settlings, since_append_singleton]
  simp [Note.restarts, Note.settling?, settlings]

end Single

/-! ## Notes that do not count at a place -/

/-- What is below a place is not around it. -/
theorem not_prefix_snoc (p : Place) (i : Nat) : ¬ p ++ [i] <+: p := fun h => by
  have hlen := h.length_le
  rw [List.length_append, List.length_singleton] at hlen
  omega

/-- A note tells of nothing at a place and puts an end to nothing there. -/
structure Note.Spares (p : Place) (n : Note) : Prop where
  renews : n.renews p = false
  derivation : n.derivation? p = none
  restarts : n.restarts p = false
  settling : n.settling? p = none

section Spares

variable {p q : Place} {n : Note} {h ns : List Note}

theorem derivations_append (hns : ∀ n ∈ ns, n.Spares p) : derivations p (h ++ ns) = derivations p h :=
  since_append fun n hn => ⟨(hns n hn).renews, (hns n hn).derivation⟩

theorem settlings_append (hns : ∀ n ∈ ns, n.Spares p) : settlings p (h ++ ns) = settlings p h :=
  since_append fun n hn => ⟨(hns n hn).restarts, (hns n hn).settling⟩

/-- What happens inside a place does not count elsewhere. -/
theorem Note.Inside.spares (hn : n.Inside q) (hp : ¬ q <+: p) : n.Spares p := by
  have hplace : ¬ n.place <+: p := fun h => hp (hn.place.trans h)
  have hne : n.place ≠ p := fun h => hplace (h ▸ List.prefix_refl _)
  obtain ⟨place, happening⟩ := n
  constructor
  · cases happening <;> simp_all [renews]
  · cases happening <;> simp_all [derivation?]
  · cases happening <;> simp_all [restarts]
  · cases happening <;> simp_all [settling?]

/-- A note that counts nowhere: that a formula was evaluated, or that a bullet was made. -/
def Note.Passing (n : Note) : Prop :=
  (∃ f params, n.happening = .used f params) ∨ ∃ shot, n.happening = .fired shot

theorem Note.Passing.spares (hn : n.Passing) (p : Place) : n.Spares p := by
  rcases hn with ⟨f, params, hn⟩ | ⟨shot, hn⟩
  · constructor <;> simp [renews, derivation?, restarts, settling?, hn]
  · constructor <;> simp [renews, derivation?, restarts, settling?, hn]

theorem Note.Passing.surroundings (hn : n.Passing) : n.surroundings? = none := by
  rcases hn with ⟨f, params, hn⟩ | ⟨shot, hn⟩ <;> simp [surroundings?, hn]

theorem passing_uses {place : Place} {us : List Reading} (hn : n ∈ uses place us) : n.Passing := by
  obtain ⟨u, -, rfl⟩ := List.mem_map.1 hn
  exact .inl ⟨_, _, rfl⟩

theorem passing_headingNotes {place : Place} {params inner : Params} {f : FireStep}
    (hn : n ∈ f.headingNotes place params inner) : n.Passing := by
  obtain ⟨u, -, rfl⟩ := List.mem_map.1 hn
  exact .inl ⟨_, _, rfl⟩

theorem passing_paceNotes {place : Place} {params inner : Params} {f : FireStep}
    (hn : n ∈ f.paceNotes place params inner) : n.Passing := by
  obtain ⟨u, -, rfl⟩ := List.mem_map.1 hn
  exact .inl ⟨_, _, rfl⟩

/-- What happens below a place does not count at the place. -/
theorem Note.Inside.spares_above {i : Nat} (hn : n.Inside (p ++ [i])) : n.Spares p :=
  hn.spares (not_prefix_snoc p i)

/-- What happens below one number does not count below another. -/
theorem Note.Inside.spares_beside {i j : Nat} (hn : n.Inside (p ++ [i])) (hij : i ≠ j) (q : Place) :
    n.Spares (p ++ [j] ++ q) := by
  refine hn.spares fun hp => hij ?_
  rw [List.append_assoc, List.prefix_append_right_inj] at hp
  simpa using hp

end Spares

/-! ## The parameters at a place -/

namespace Step

variable {tree : Step} {h ns : List Note} {p q : Place}

theorem vector?_snoc (tree : Step) (h : List Note) (p : Place) (i : Nat) :
    tree.vector? h (p ++ [i]) = (tree.vector? h p).bind (tree.inner? h p) := by
  rw [vector?, List.reverse_concat, vectorFrom?, List.reverse_reverse, vector?]

/-- The parameters below a place without arguments are those around it. -/
theorem vector?_shared {params : Params} (hargs : tree.argsAt? p = none)
    (hv : tree.vector? h p = some params) (i : Nat) : tree.vector? h (p ++ [i]) = some params := by
  rw [vector?_snoc, hv, Option.bind_some, inner?, hargs]

/-- The parameters below a reference are what its arguments came to. -/
theorem vector?_derived {outer values : Params} {args : List Formula} (hargs : tree.argsAt? p = some args)
    (hv : tree.vector? h p = some outer) (hd : derivations p h = [(outer, values)]) (i : Nat) :
    tree.vector? h (p ++ [i]) = some values := by
  rw [vector?_snoc, hv, Option.bind_some, inner?, hargs, hd]
  exact if_pos rfl

/-- Notes that count nowhere on the way to a place do not change the parameters there. -/
theorem vector?_append (hns : ∀ n ∈ ns, n.surroundings? = none)
    (hspares : ∀ q, q <+: p → q ≠ p → ∀ n ∈ ns, n.Spares q) :
    tree.vector? (h ++ ns) p = tree.vector? h p := by
  induction p using List.reverseRecOn with
  | nil => exact surroundings_append hns
  | append_singleton p i ih =>
    have hinit : p <+: p ++ [i] := List.prefix_append p [i]
    have hne : p ≠ p ++ [i] := by simp
    have hp := ih fun q hq _ => hspares q (hq.trans hinit) fun heq =>
      not_prefix_snoc p i (heq ▸ hq)
    have hinner : tree.inner? (h ++ ns) p = tree.inner? h p := by
      funext outer
      rw [inner?, inner?, derivations_append (hspares p hinit hne)]
    rw [vector?_snoc, vector?_snoc, hp, hinner]

/-- What happens inside a place does not change the parameters around it. -/
theorem vector?_inside (hns : ∀ n ∈ ns, n.Inside p) : tree.vector? (h ++ ns) p = tree.vector? h p :=
  vector?_append (fun n hn => (hns n hn).surroundings) fun _ hq hne n hn =>
    (hns n hn).spares fun hpq => hne (hq.eq_of_length_le hpq.length_le)

/-- Notes that count nowhere do not change the parameters anywhere. -/
theorem vector?_passing (hns : ∀ n ∈ ns, n.Passing) : tree.vector? (h ++ ns) p = tree.vector? h p :=
  vector?_append (fun n hn => (hns n hn).surroundings) fun q _ _ n hn => (hns n hn).spares q

end Step

/-! ## Notes that count nowhere -/

section Passing

variable {tree : Step} {before ns : List Note} {n : Note} {place : Place} {params : Params}

/-- Notes that count nowhere do not change what is in scope. -/
theorem Note.InScope.append (h : n.InScope tree before) (hns : ∀ m ∈ ns, m.Passing) :
    n.InScope tree (before ++ ns) := by
  have hd : derivations n.place (before ++ ns) = derivations n.place before :=
    derivations_append fun m hm => (hns m hm).spares _
  have hs : settlings n.place (before ++ ns) = settlings n.place before :=
    settlings_append fun m hm => (hns m hm).spares _
  unfold InScope at h ⊢
  rw [Step.vector?_passing hns, hd, hs]
  exact h

/-- Notes that count nowhere are in scope if each one is by itself. -/
theorem each_inScope_passing (h : ∀ n ∈ ns, n.Passing ∧ n.InScope tree before) :
    Each (Note.InScope tree) before ns := by
  refine each_iff.2 fun first n rest heq => ?_
  have hmem : n ∈ ns := heq ▸ List.mem_append_right first (List.mem_cons_self ..)
  refine (h n hmem).2.append fun m hm => (h m ?_).1
  rw [heq]
  exact List.mem_append_left _ hm

/-- Evaluations of formulas of a place against the parameters there. -/
theorem each_inScope_uses {fs : List Formula} (hfs : ∀ f ∈ fs, f ∈ tree.formulasAt place)
    (hv : tree.vector? before place = some params) (hs : settlings place before = []) :
    Each (Note.InScope tree) before (uses place (against params fs)) := by
  refine each_inScope_passing fun n hn => ⟨passing_uses hn, ?_⟩
  obtain ⟨u, hu, rfl⟩ := List.mem_map.1 hn
  obtain ⟨f, hf, rfl⟩ := List.mem_map.1 hu
  exact ⟨hfs f hf, hv, hs⟩

end Passing

end Barrage
