import Barrage.Turn.Entering

/-!
# What happens in a turn is in scope

* `Turn.Asks.each_inScope`: what a fire evaluates for its bullet is in scope.
* `timed_inScope`, `FireStep.Notes.tracked`: the turns of leaves. `Sequence.tracked_settle`,
  `LoopStep.tracked_entered`, `LoopStep.tracked_round`: those of sequences and loops, given what is below.
* `Step.Notes.tracked`: what happens in the turn of a tree that agrees with the notes is in scope, and the
  tree agrees with the notes after it.
-/

namespace Barrage

variable {φ ρ α : Type} [RandomSource ρ] {tree : Step} {stage : Stage} {place : Place}
  {outer params : Params} {before ns : List Note}

/-! ## Fires -/

section Fires

/-- The scope of a bullet: the arguments of the reference to its definition, if it is one. -/
def FireStep.bulletScope (f : FireStep) : Scope := f.args.elim .shared .ofArgs

theorem FireStep.args?_bulletScope (f : FireStep) : f.bulletScope.args? = f.args := by
  unfold bulletScope
  cases f.args <;> rfl

/-- The parameters of a bullet are those of its scope, which is entered anew for each bullet. -/
theorem Turn.resolve_bulletScope (place : Place) {f : FireStep} {inner : Params} {t t' : Turn φ ρ α}
    (h : t.bulletParams stage params f = (.ok inner, t')) :
    ∃ scope isNew, t.resolve stage params f.bulletScope = (.ok (scope, isNew), t') ∧
      scope.params params = inner ∧
      f.argNotes place params inner = scopeNotes (place ++ [0]) params f.bulletScope scope isNew := by
  unfold bulletParams at h
  unfold FireStep.bulletScope FireStep.argNotes
  cases hargs : f.args with
  | none =>
    rw [hargs] at h
    cases h
    exact ⟨.shared, false, rfl, rfl, rfl⟩
  | some args =>
    have hvalues : t.evalAll stage params args = (.ok inner, t') := by
      rw [hargs] at h
      exact h
    refine ⟨.derived args inner true, true, ?_, rfl, rfl⟩
    rw [Option.elim_some, Scope.ofArgs, resolve, hvalues]

/-- Where the parts of a fire are in a tree. -/
structure FireStep.At (tree : Step) (place : Place) (f : FireStep) : Prop where
  args : tree.argsAt? (place ++ [0]) = f.args
  formulas : tree.formulasAt (place ++ [0]) = f.args.getD [] ++ f.fire.formulas
  definition : tree.formulasAt (place ++ [0, 0]) = f.definition.formulas

theorem FireStep.at_of_sub {f : FireStep} (h : tree.sub? place = some (Step.fire f).blank) :
    f.At tree place where
  args := Step.argsAt?_append h [0]
  formulas := Step.formulasAt_append h [0]
  definition := Step.formulasAt_append h [0, 0]

variable {f : FireStep} {inner : Params}

/-- A formula of a fire is in scope with the parameters of the fire, one of the definition with those of the
bullet. -/
theorem FireStep.At.inScope (hat : f.At tree place)
    (hv : tree.vector? before (place ++ [0]) = some params)
    (hinner : tree.vector? before (place ++ [0, 0]) = some inner)
    (hs : ∀ p, settlings (place ++ 0 :: p) before = []) {u : Formula × Place × Params}
    (hu : u.1 ∈ f.fire.formulas ∧ u.2 = (place ++ [0], params) ∨
      u.1 ∈ f.definition.formulas ∧ u.2 = (place ++ [0, 0], inner)) :
    Note.InScope tree before ⟨u.2.1, .used u.1 u.2.2⟩ := by
  rcases hu with ⟨hmem, hu⟩ | ⟨hmem, hu⟩ <;> rw [hu]
  · refine ⟨?_, hv, hs []⟩
    rw [hat.formulas]
    exact List.mem_append_right _ hmem
  · refine ⟨?_, hinner, hs [0]⟩
    rw [hat.definition]
    exact hmem

/-- What a fire evaluates for its bullet is in scope. -/
theorem Turn.Asks.each_inScope {t : Turn φ ρ α} {x : Except EvalError Request × Turn φ ρ α}
    (h : t.Asks stage place params f ns x) (hat : f.At tree place)
    (hv : tree.vector? before (place ++ [0]) = some params) (hd : derivations (place ++ [0]) before = [])
    (hs : ∀ p, settlings (place ++ 0 :: p) before = []) : Each (Note.InScope tree) before ns := by
  have hown : tree.argsAt? (place ++ [0]) = f.bulletScope.args? := by
    rw [hat.args, f.args?_bulletScope]
  have hfs : f.bulletScope.args?.getD [] ⊆ tree.formulasAt (place ++ [0]) := by
    rw [f.args?_bulletScope, hat.formulas]
    exact List.subset_append_left _ _
  have hagrees : f.bulletScope.Agrees params (derivations (place ++ [0]) before) := by
    rw [hd]
    refine Scope.agrees_nil ?_
    unfold FireStep.bulletScope
    cases f.args <;> rfl
  -- The arguments come first; the heading and the speed are evaluated with what they came to.
  have hargs {inner : Params} {t₁ : Turn φ ρ α} (hr : t.bulletParams stage params f = (.ok inner, t₁)) :
      Each (Note.InScope tree) before (f.argNotes place params inner) ∧
      ∀ u : Formula × Place × Params, (u.1 ∈ f.fire.formulas ∧ u.2 = (place ++ [0], params) ∨
          u.1 ∈ f.definition.formulas ∧ u.2 = (place ++ [0, 0], inner)) →
        Note.InScope tree (before ++ f.argNotes place params inner) ⟨u.2.1, .used u.1 u.2.2⟩ := by
    obtain ⟨scope, isNew, hresolve, rfl, hnotes⟩ := resolve_bulletScope place hr
    obtain ⟨heach, hentered⟩ := Turn.entered hresolve hagrees hown hfs hv (hs [])
    rw [← hnotes] at heach hentered
    have hinner := hentered.vector 0
    rw [List.append_assoc] at hinner
    refine ⟨heach, fun u hu => hat.inScope ?_ hinner (fun p => ?_) hu⟩
    · exact (Step.vector?_inside fun n hn => inside_argNotes hn).trans hv
    · exact (hentered.settlings _).trans (hs p)
  cases h with
  | argsFail _ hinit =>
    refine each_inScope_uses (fun g hg => ?_) hv (hs [])
    rw [hat.formulas]
    exact List.mem_append_left _ (hinit.subset hg)
  | headingFails hr =>
    obtain ⟨heach, hinScope⟩ := hargs hr
    refine each_append.2 ⟨heach, each_inScope_passing fun n hn => ⟨passing_headingNotes hn, ?_⟩⟩
    obtain ⟨u, hu, rfl⟩ := List.mem_map.1 hn
    exact hinScope u (FireStep.mem_headingBy hu)
  | paceFails hr | asked hr =>
    obtain ⟨heach, hinScope⟩ := hargs hr
    rw [List.append_assoc]
    refine each_append.2 ⟨heach, each_inScope_passing fun n hn => ?_⟩
    rcases List.mem_append.1 hn with hn | hn
    · refine ⟨passing_headingNotes hn, ?_⟩
      obtain ⟨u, hu, rfl⟩ := List.mem_map.1 hn
      exact hinScope u (FireStep.mem_headingBy hu)
    · refine ⟨passing_paceNotes hn, ?_⟩
      obtain ⟨u, hu, rfl⟩ := List.mem_map.1 hn
      exact hinScope u (FireStep.mem_paceBy hu)

end Fires

/-! ## Leaves -/

/-- What a step evaluates before it holds anything. -/
theorem Step.args?_of_sub {s : Step} (h : tree.sub? place = some s.blank) :
    tree.argsAt? place = s.scope.args? := by
  have hargs := argsAt?_append h []
  rw [List.append_nil, argsAt?, args?_scope_blank] at hargs
  exact hargs

theorem Step.formulas_of_sub {s : Step} (h : tree.sub? place = some s.blank) :
    tree.formulasAt place = s.formulas := by
  have hformulas := formulasAt_append h []
  rw [List.append_nil, formulasAt, formulas_blank] at hformulas
  exact hformulas

/-- The arguments of a step are evaluated where it is. -/
theorem Step.args_subset {s : Step} (h : tree.sub? place = some s.blank)
    (hs : s.formulas = s.scope.args?.getD []) : s.scope.args?.getD [] ⊆ tree.formulasAt place := by
  rw [formulas_of_sub h, hs]
  exact List.Subset.refl _

/-- A step that settles on a value has settled on none before. -/
theorem settled_once (tree : Step) {x y : Option Settled} (hs : settlings place before = x.toList)
    (hkeep : ∀ value, x = some value → y = some value) :
    Each (Note.InScope tree) before (settlement place x y) ∧
      settlings place (before ++ settlement place x y) = y.toList := by
  cases x with
  | some value =>
    obtain rfl := hkeep value rfl
    have hnotes : settlement place (some value) (some value) = [] := rfl
    rw [hnotes, List.append_nil]
    exact ⟨trivial, hs⟩
  | none =>
    cases y with
    | none =>
      have hnotes : settlement place none none = [] := rfl
      rw [hnotes, List.append_nil]
      exact ⟨trivial, hs⟩
    | some value =>
      refine ⟨each_singleton.2 hs, ?_⟩
      rw [settlement, settlings_settled, hs]
      rfl

/-- The notes of a timed step: it evaluates its formulas if it has not settled, and then settles. -/
theorem timed_inScope {s s' : Step} {fs pending : List Formula}
    (htree : tree.sub? place = some s.blank) (hinit : fs <+: pending)
    (hpending : pending = if s.settled?.isNone then s.formulas else [])
    (hv : tree.vector? before place = some params) (hs : s.Tracked place params before)
    (hkeep : ∀ value, s.settled? = some value → s'.settled? = some value)
    (hleaf : ∀ i, s'.child? i = none) (hscope : s'.scope = .shared) :
    let ns := uses place (against params fs) ++ settlement place s.settled? s'.settled?
    Each (Note.InScope tree) before ns ∧ s'.Tracked place params (before ++ ns) := by
  have hpassing : ∀ n ∈ uses place (against params fs), n.Passing := fun n hn => passing_uses hn
  have huses : Each (Note.InScope tree) before (uses place (against params fs)) := by
    cases hx : s.settled? with
    | some value =>
      rw [hpending, hx] at hinit
      rw [List.prefix_nil.1 hinit]
      trivial
    | none =>
      rw [hpending, hx] at hinit
      refine each_inScope_uses (fun f hf => ?_) hv (by rw [hs.settlings, hx]; rfl)
      rw [Step.formulas_of_sub htree]
      exact hinit.subset hf
  -- Evaluations are not settlings: what the step has settled on is as it was before them.
  obtain ⟨hsettles, hafter⟩ := settled_once tree
    ((settlings_append fun n hn => (hpassing n hn).spares place).trans hs.settlings) hkeep
  refine ⟨each_append.2 ⟨huses, hsettles⟩, (Step.tracked_leaf hleaf).2 ⟨?_, ?_⟩⟩
  · rw [hscope]
    trivial
  · rw [← List.append_assoc]
    exact hafter

/-- A pause keeps the duration that it has settled on. -/
theorem WaitStep.settled_dispatch {w : WaitStep} (t : Turn φ ρ α) {value : Settled}
    (h : (Step.wait w).settled? = some value) :
    (Step.wait (w.dispatch stage params t).step).settled? = some value := by
  obtain ⟨d, hd, rfl⟩ := Option.map_eq_some_iff.1 h
  rcases w.dispatch_cases stage params t with ⟨_, _, -, -, hx⟩ | ⟨d', t', w', hp, -, hw, hx⟩ <;> rw [hx]
  · exact h
  · rw [Turn.pauseFor, hd] at hp
    cases hp
    rw [hw]
    rfl

/-- A mutation keeps the glide that it has settled on. -/
theorem MutationStep.settled_dispatch {m : MutationStep} (t : Turn φ ρ α) {value : Settled}
    (h : (Step.mutation m).settled? = some value) :
    (Step.mutation (m.dispatch stage params t).step).settled? = some value := by
  obtain ⟨g, hg, rfl⟩ := Option.map_eq_some_iff.1 h
  rcases m.dispatch_cases stage params t with ⟨_, _, -, -, hx⟩ | ⟨g', t', m', hp, -, hm, hx⟩ <;> rw [hx]
  · exact h
  · rw [Turn.settle, hg] at hp
    cases hp
    rw [hm]
    rfl

theorem WaitStep.pending_eq (w : WaitStep) :
    w.pending = if (Step.wait w).settled?.isNone then (Step.wait w).formulas else [] := by
  rcases w with ⟨length, _ | duration, elapsed, finished⟩ <;> rfl

theorem MutationStep.pending_eq (m : MutationStep) :
    m.pending = if (Step.mutation m).settled?.isNone then (Step.mutation m).formulas else [] := by
  rcases m with ⟨steering, term, _ | glide, elapsed, finished⟩ <;> rfl

/-- A fire that was entered and asked for something, and perhaps made it. -/
theorem FireStep.tracked_asked [BulletFactory φ α] (fired : Bool) {f : FireStep} {scope : Scope}
    {isNew : Bool} {t t₁ : Turn φ ρ α} {x : Except EvalError Request × Turn φ ρ α}
    (hr : (t.log (.began .fire)).resolve stage params f.scope = (.ok (scope, isNew), t₁))
    (ha : t₁.Asks stage place (scope.params params) { f with scope } ns x)
    (htree : tree.sub? place = some (Step.fire f).blank)
    (hv : tree.vector? before place = some params) (hs : (Step.fire f).Tracked place params before) :
    Each (Note.InScope tree) before (f.entryNotes place params scope isNew ++ ns) ∧
      (Step.fire { f with scope, fired }).Tracked place params
        (before ++ (f.entryNotes place params scope isNew ++ ns)) := by
  obtain ⟨heach, hentered⟩ := Turn.entered hr hs.scope (Step.args?_of_sub htree)
    (Step.args_subset htree rfl) hv hs.settlings
  have hrestart : ∀ n ∈ [(⟨place ++ [0], .restarted⟩ : Note)], n.Inside (place ++ [0]) :=
    fun n hn => inside_singleton rfl hn
  have hbelow : ∀ n ∈ [(⟨place ++ [0], .restarted⟩ : Note)] ++ ns, n.Inside (place ++ [0]) :=
    List.forall_mem_append.2 ⟨hrestart, ha.inside⟩
  -- The bullet starts over below the fire, so nothing that was noted there before counts.
  let after := before ++ scopeNotes place params f.scope scope isNew ++ [⟨place ++ [0], .restarted⟩]
  have hvector : tree.vector? after (place ++ [0]) = some (scope.params params) :=
    (Step.vector?_inside hrestart).trans (hentered.vector 0)
  have hnone : derivations (place ++ [0]) after = [] := by
    have hnone : derivations (place ++ [0] ++ []) after = [] := derivations_restarted _ []
    rwa [List.append_nil] at hnone
  have hsettled (p : Place) : settlings (place ++ 0 :: p) after = [] := by
    have hsettled : settlings (place ++ [0] ++ p) after = [] := settlings_restarted _ p
    rwa [List.append_assoc] at hsettled
  have hat := FireStep.at_of_sub htree
  have hasks := ha.each_inScope ⟨hat.args, hat.formulas, hat.definition⟩ hvector hnone hsettled
  rw [entryNotes, List.append_assoc]
  refine ⟨each_append.2 ⟨heach, each_append.2 ⟨each_singleton.2 trivial, hasks⟩⟩, ?_⟩
  rw [← List.append_assoc]
  refine (Step.tracked_leaf (Step.child?_fire _)).2 ⟨?_, ?_⟩
  · rw [derivations_append fun n hn => (hbelow n hn).spares_above]
    exact hentered.agrees
  · rw [settlings_append fun n hn => (hbelow n hn).spares_above, hentered.settlings]
    exact hs.settlings

theorem FireStep.Notes.tracked [BulletFactory φ α] {f : FireStep} {t : Turn φ ρ α}
    {o : Outcome FireStep (Turn φ ρ α)} (h : f.Notes stage place params t ns o)
    (htree : tree.sub? place = some (Step.fire f).blank)
    (hv : tree.vector? before place = some params) (hs : (Step.fire f).Tracked place params before) :
    Each (Note.InScope tree) before ns ∧ (Step.fire o.step).Tracked place params (before ++ ns) := by
  cases h with
  | scopeFails _ hinit =>
    exact ⟨each_inScope_pending hinit (Step.args_subset htree rfl) hv hs.settlings,
      hs.passing fun n hn => passing_uses hn⟩
  | fails hr ha => exact FireStep.tracked_asked _ hr ha htree hv hs
  | fires hr ha =>
    obtain ⟨heach, htracked⟩ := FireStep.tracked_asked true hr ha htree hv hs
    refine ⟨each_append.2 ⟨heach, each_singleton.2 trivial⟩, ?_⟩
    rw [← List.append_assoc]
    refine htracked.passing fun n hn => ?_
    obtain rfl := List.mem_singleton.1 hn
    exact .inr ⟨_, rfl⟩

/-! ## Sequences -/

omit [RandomSource ρ] in
theorem Sequence.scope_settle (s : Sequence Step) (o : Outcome Step (Turn φ ρ α)) :
    (s.settle o).step.scope = s.scope := by
  unfold settle
  split
  · rfl
  · simp only
    split <;> rfl

omit [RandomSource ρ] in
theorem Sequence.children_settle (s : Sequence Step) (o : Outcome Step (Turn φ ρ α)) :
    (s.settle o).step.children = s.children.set s.cursor o.step := by
  unfold settle
  split
  · rfl
  · simp only
    split <;> rfl

/-- The steps of a sequence that was entered agree with the notes. -/
theorem Sequence.tracked_withScope {s : Sequence Step} {scope : Scope} {isNew : Bool} {after : List Note}
    (he : Entered tree place outer before after s.scope scope isNew)
    (hs : (Step.sequence s).Tracked place outer before) {i : Nat} {c : Step}
    (hc : (s.withScope scope isNew).children[i]? = some c) :
    c.Tracked (place ++ [i]) (scope.params outer) after := by
  cases isNew with
  | false =>
    obtain ⟨rfl, rfl⟩ := he.kept rfl
    exact ((Step.tracked_sequence he.seen).1 hs).2.2 i c hc
  | true =>
    -- New values: the steps forget what they derived from the old ones, as the notes do.
    have hc : (Step.expireAll s.children)[i]? = some c := hc
    rw [Step.expireAll_eq_map, List.getElem?_map] at hc
    obtain ⟨c₀, hc₀, rfl⟩ := Option.map_eq_some_iff.1 hc
    refine .expire (fun p x hx => ?_) (fun p => ?_)
    · rw [he.settlings]
      exact hs.settled_child (s := .sequence s) hc₀ hx
    · rw [List.append_assoc]
      exact he.renewed rfl i p

omit [RandomSource ρ] in
/-- A sequence agrees with the notes after the turn of the step under its cursor. -/
theorem Sequence.tracked_settle {s : Sequence Step} {scope : Scope} {isNew : Bool} {after : List Note}
    {o : Outcome Step (Turn φ ρ α)} (he : Entered tree place outer before after s.scope scope isNew)
    (hs : (Step.sequence s).Tracked place outer before)
    (hns : ∀ n ∈ ns, n.Inside (place ++ [s.cursor]))
    (ho : o.step.Tracked (place ++ [s.cursor]) (scope.params outer) (after ++ ns)) :
    (Step.sequence ((s.withScope scope isNew).settle o).step).Tracked place outer (after ++ ns) := by
  have hscope : ((s.withScope scope isNew).settle o).step.scope = scope := Sequence.scope_settle _ o
  have hseen : ((s.withScope scope isNew).settle o).step.scope.seen? outer
      = some (scope.params outer) := by
    rw [hscope, he.seen]
  refine (Step.tracked_sequence hseen).2 ⟨?_, ?_, fun i c hc => ?_⟩
  · rw [hscope, derivations_append fun n hn => (hns n hn).spares_above]
    exact he.agrees
  · rw [settlings_append fun n hn => (hns n hn).spares_above, he.settlings]
    exact hs.settlings
  · have hcursor : (s.withScope scope isNew).cursor = s.cursor := rfl
    rw [Sequence.children_settle] at hc
    -- The notes of the turn are about the step under the cursor, and spare those beside it.
    by_cases hi : s.cursor = i
    · subst hi
      rw [hcursor, List.getElem?_set_self'] at hc
      obtain ⟨_, -, rfl⟩ := Option.map_eq_some_iff.1 hc
      exact ho
    · rw [hcursor, List.getElem?_set_ne hi] at hc
      exact (Sequence.tracked_withScope he hs hc).beside hns hi

/-! ## Loops -/

/-- A loop evaluates its count if it has none, and then it has one. -/
theorem LoopStep.tracked_entered {l : LoopStep Step} {count : Nat} (hl : l.target = none)
    (htree : tree.sub? place = some (Step.loop l).blank) (hv : tree.vector? before place = some params)
    (hs : (Step.loop l).Tracked place params before) :
    let ns := uses place (against params [l.times]) ++ [⟨place, .settled (.count count)⟩]
    Each (Note.InScope tree) before ns ∧ tree.vector? (before ++ ns) place = some params ∧
      (Step.loop { l with target := some count }).Tracked place params (before ++ ns) := by
  obtain ⟨hnone, hbody⟩ := Step.tracked_loop.1 hs
  rw [hl] at hnone
  have hpassing : ∀ n ∈ uses place (against params [l.times]), n.Passing := fun n hn => passing_uses hn
  have hcount : settlings place (before ++ uses place (against params [l.times])) = [] :=
    (settlings_append fun n hn => (hpassing n hn).spares place).trans hnone
  have hbody := hbody.passing hpassing
  refine ⟨each_append.2 ⟨each_inScope_uses (fun f hf => ?_) hv hnone, each_singleton.2 hcount⟩, ?_, ?_⟩
  · rw [Step.formulas_of_sub htree]
    exact hf
  · exact (Step.vector?_inside (List.forall_mem_append.2
      ⟨fun n hn => inside_uses hn, fun n hn => inside_singleton rfl hn⟩)).trans hv
  · rw [← List.append_assoc]
    refine Step.tracked_loop.2 ⟨?_, ⟨fun p u scope hp => ?_, fun p y hy => ?_⟩⟩
    · rw [settlings_settled, hcount]
      rfl
    · rw [derivations_settled]
      exact hbody.scopes p u scope hp
    · have hsettled := hbody.settled p y hy
      rw [List.append_assoc] at hsettled ⊢
      rw [List.singleton_append, settlings_settled_below]
      exact hsettled

/-- A loop agrees with the notes after a round of its body, in which everything was in scope. -/
theorem LoopStep.tracked_round {l : LoopStep Step} {body : Sequence Step}
    (hcount : settlings place before = (l.target.map Settled.count).toList)
    (hns : ∀ n ∈ ns, n.Inside (place ++ [0])) (hturn : Each (Note.InScope tree) before ns)
    (hbody : (Step.sequence body).Tracked (place ++ [0]) params (before ++ ns)) :
    Each (Note.InScope tree) before (ns ++ startOver (place ++ [0]) body) ∧
      (Step.loop ({ l with body } : LoopStep Step).settle).Tracked place params
        (before ++ (ns ++ startOver (place ++ [0]) body)) := by
  have hafter : settlings place (before ++ ns) = (l.target.map Settled.count).toList := by
    rw [settlings_append fun n hn => (hns n hn).spares_above, hcount]
  by_cases hd : body.isDone = true
  · have hnotes : startOver (place ++ [0]) body = [⟨place ++ [0], .restarted⟩] := if_pos hd
    have hsettle : ({ l with body } : LoopStep Step).settle
        = { l with completed := l.completed + 1, body := body.reset } := if_pos hd
    rw [hnotes, hsettle, ← List.append_assoc]
    refine ⟨each_append.2 ⟨hturn, each_singleton.2 trivial⟩, Step.tracked_loop.2 ⟨?_, ?_⟩⟩
    · rw [settlings_append fun n hn => (inside_singleton rfl hn).spares_above]
      exact hafter
    · exact Step.tracked_reset (.sequence body) params (derivations_restarted _) (settlings_restarted _)
  · have hnotes : startOver (place ++ [0]) body = [] := if_neg hd
    have hsettle : ({ l with body } : LoopStep Step).settle = { l with body } := if_neg hd
    rw [hnotes, hsettle, List.append_nil]
    exact ⟨hturn, Step.tracked_loop.2 ⟨hafter, hbody⟩⟩

/-! ## Trees -/

/-- What happens in the turn of a tree that agrees with the notes is in scope, and the tree agrees with the
notes after it. -/
theorem Step.Notes.tracked [BulletFactory φ α] {s : Step} {t : Turn φ ρ α}
    {o : Outcome Step (Turn φ ρ α)} (h : s.Notes stage place params t ns o)
    (htree : tree.sub? place = some s.blank) (hv : tree.vector? before place = some params)
    (hs : s.Tracked place params before) :
    Each (Note.InScope tree) before ns ∧ o.step.Tracked place params (before ++ ns) := by
  -- What happened before grows along the turn, so the induction is for all of it.
  induction h generalizing before with
  | done | ended | exhausted =>
    rw [List.append_nil]
    exact ⟨trivial, hs⟩
  | @vanish place params triggered t =>
    rw [List.append_nil]
    exact ⟨trivial, (tracked_leaf fun _ => rfl).2 ⟨trivial, hs.settlings⟩⟩
  | scopeFails _ hinit =>
    exact ⟨each_inScope_pending hinit (args_subset htree rfl) hv hs.settlings,
      hs.passing fun n hn => passing_uses hn⟩
  | @current place params s _ scope isNew _ _ ns o hr hc h ih =>
    obtain ⟨heach, hentered⟩ := Turn.entered hr hs.scope (args?_of_sub htree)
      (args_subset htree rfl) hv hs.settlings
    obtain ⟨hturn, hstep⟩ := ih (Sequence.sub?_current htree hc) (hentered.vector s.cursor)
      (Sequence.tracked_withScope hentered hs hc)
    refine ⟨each_append.2 ⟨heach, hturn⟩, ?_⟩
    rw [← List.append_assoc]
    exact Sequence.tracked_settle hentered hs h.inside hstep
  | fire h => exact h.tracked htree hv hs
  -- A timed step evaluates its formulas once, and keeps what it settles on.
  | @mutation _ _ m t _ hinit =>
    exact timed_inScope htree hinit m.pending_eq hv hs (fun _ => m.settled_dispatch t) (fun _ => rfl) rfl
  | @wait _ _ w t _ hinit =>
    exact timed_inScope htree hinit w.pending_eq hv hs (fun _ => w.settled_dispatch t) (fun _ => rfl) rfl
  | countFails hl hr =>
    have hnone := (tracked_loop.1 hs).1
    rw [hl] at hnone
    refine ⟨each_inScope_uses (fun f hf => ?_) hv hnone, hs.passing fun n hn => passing_uses hn⟩
    rw [formulas_of_sub htree]
    exact hf
  | entered hl _ _ ih =>
    obtain ⟨hcount, hvector, hloop⟩ := LoopStep.tracked_entered hl htree hv hs
    obtain ⟨hturn, hstep⟩ := ih (by rw [htree, blank_loop, blank_loop]) hvector hloop
    refine ⟨each_append.2 ⟨hcount, hturn⟩, ?_⟩
    rwa [← List.append_assoc]
  | @fails place params l _ _ _ _ _ _ _ h _ ih =>
    obtain ⟨hcount, hbody⟩ := tracked_loop.1 hs
    obtain ⟨hturn, hstep⟩ := ih (LoopStep.sub?_body htree)
      (vector?_shared (args?_of_sub htree) hv 0) hbody
    refine ⟨hturn, tracked_loop.2 ⟨?_, hstep⟩⟩
    rw [settlings_append fun n hn => (h.inside n hn).spares_above]
    exact hcount
  | yields _ _ h _ _ ih =>
    obtain ⟨hcount, hbody⟩ := tracked_loop.1 hs
    obtain ⟨hturn, hstep⟩ := ih (LoopStep.sub?_body htree)
      (vector?_shared (args?_of_sub htree) hv 0) hbody
    exact LoopStep.tracked_round hcount h.inside hturn hstep
  | @again _ _ _ _ _ _ _ _ o _ _ h _ _ _ ih ih' =>
    obtain ⟨hcount, hbody⟩ := tracked_loop.1 hs
    obtain ⟨hturn, hstep⟩ := ih (LoopStep.sub?_body htree)
      (vector?_shared (args?_of_sub htree) hv 0) hbody
    obtain ⟨hround, hloop⟩ := LoopStep.tracked_round hcount h.inside hturn hstep
    -- What happened in the round is below the loop, so the parameters around the loop are the same.
    have hvector := (vector?_inside (inside_round h.inside o.step)).trans hv
    obtain ⟨hrest, hafter⟩ := ih' (by rw [htree, blank_round h.blank]) hvector hloop
    refine ⟨each_append.2 ⟨hround, hrest⟩, ?_⟩
    rwa [← List.append_assoc]

end Barrage
