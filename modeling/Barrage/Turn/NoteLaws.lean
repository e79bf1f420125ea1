import Barrage.Turn.Blank
import Barrage.Turn.Notes

/-!
# Laws of notes

* `Step.Notes.blank`: no turn changes what a step was before it was entered. `Sequence.sub?_current`,
  `LoopStep.sub?_body`: so what is below it is where the tree has it.
* `Step.Notes.inside`: the notes of a turn are of the place of the step or of places below it.
* `Step.Notes.readings`: the evaluations in the journal of a turn are those of its notes.
-/

namespace Barrage

variable {φ ρ α : Type} [RandomSource ρ] [BulletFactory φ α]

/-! ## The tree keeps its shape -/

theorem FireStep.Notes.blank {stage : Stage} {place : Place} {outer : Params} {f : FireStep}
    {t : Turn φ ρ α} {ns : List Note} {o : Outcome FireStep (Turn φ ρ α)}
    (h : f.Notes stage place outer t ns o) : (Step.fire o.step).blank = (Step.fire f).blank := by
  have hscope {scope : Scope} {isNew : Bool} {t₁ : Turn φ ρ α}
      (hr : (t.log (.began .fire)).resolve stage outer f.scope = (.ok (scope, isNew), t₁)) :
      scope.expire.forget = f.scope.expire.forget := Turn.blank_resolve hr
  cases h with
  | scopeFails => rfl
  | fails hr => simp only [Step.blank, Step.reset, Step.forget, FireStep.reset, hscope hr]
  | fires hr => simp only [Step.blank, Step.reset, Step.forget, FireStep.reset, hscope hr]

namespace Step.Notes

variable {stage : Stage} {place : Place} {params : Params} {s : Step} {t : Turn φ ρ α}
  {ns : List Note} {o : Outcome Step (Turn φ ρ α)}

omit [RandomSource ρ] [BulletFactory φ α] in
/-- A round of a loop does not change what the loop was before it was entered. -/
theorem blank_round {l : LoopStep Step} {o : Outcome (Sequence Step) (Turn φ ρ α)}
    (h : (o.map Step.sequence).step.blank = (Step.sequence l.body).blank) :
    (Step.loop ({ l with body := o.step } : LoopStep Step).settle).blank = (Step.loop l).blank := by
  obtain ⟨htimes, hbody⟩ := LoopStep.blank_settle { l with body := o.step }
  have hstep : o.step.blank = l.body.blank := Step.sequence.inj h
  rw [Step.blank_loop, Step.blank_loop, htimes, hbody, hstep]

/-- No turn changes what a step was before it was entered. -/
theorem blank (h : s.Notes stage place params t ns o) : o.step.blank = s.blank := by
  induction h with
  | done | scopeFails | vanish | countFails | ended | exhausted => rfl
  | @current _ _ s _ _ isNew _ _ _ _ hr hc _ ih =>
    have hscope := s.blank_withScope isNew (Turn.blank_resolve hr)
    exact congrArg Step.sequence ((Sequence.blank_settle hc ih).trans hscope)
  | fire h => exact h.blank
  | @mutation _ params m t _ _ _ => exact (Contract.keepsBlank_kept stage).mutation params m t
  | @wait _ params w t _ _ _ => exact (Contract.keepsBlank_kept stage).wait params w t
  | entered _ _ _ ih =>
    rw [ih, Step.blank_loop, Step.blank_loop]
  | @fails _ _ l _ _ _ _ o _ _ _ _ ih =>
    have hstep : o.step.blank = l.body.blank := Step.sequence.inj ih
    show (Step.loop { l with body := o.step }).blank = _
    rw [Step.blank_loop, Step.blank_loop, hstep]
  | yields _ _ _ _ _ ih => exact blank_round ih
  | again _ _ _ _ _ _ ih ih' => exact ih'.trans (blank_round ih)

end Step.Notes

section Located

variable {tree step : Step} {place : Place}

/-- The step under a cursor is in the tree where the cursor is. -/
theorem Sequence.sub?_current {s : Sequence Step} {scope : Scope} {isNew : Bool}
    (h : tree.sub? place = some (Step.sequence s).blank)
    (hc : (s.withScope scope isNew).current? = some step) :
    tree.sub? (place ++ [s.cursor]) = some step.blank := by
  have hchild : s.children[s.cursor]?.map Step.blank = some step.blank := by
    unfold current? withScope at hc
    cases isNew with
    | false =>
      have hc : s.children[s.cursor]? = some step := hc
      rw [hc, Option.map_some]
    | true =>
      have hc : (Step.expireAll s.children)[s.cursor]? = some step := hc
      rw [Step.expireAll_eq_map, List.getElem?_map] at hc
      obtain ⟨c, hmem, rfl⟩ := Option.map_eq_some_iff.1 hc
      rw [hmem, Option.map_some, Step.blank_expire]
  rw [Step.sub?_append h, Step.sub?, Step.child?_blank, Step.child?, hchild]
  rfl

/-- The body of a loop is in the tree below the loop. -/
theorem LoopStep.sub?_body {l : LoopStep Step} (h : tree.sub? place = some (Step.loop l).blank) :
    tree.sub? (place ++ [0]) = some (Step.sequence l.body).blank := by
  rw [Step.sub?_append h, Step.sub?, Step.child?_blank]
  rfl

end Located

/-! ## No note is from outside -/

/-- A note of something at a place or below it, in a turn. -/
structure Note.Inside (place : Place) (n : Note) : Prop where
  place : place <+: n.place
  surroundings : n.surroundings? = none

section Inside

variable {place : Place} {i : Nat} {n : Note} {us : List Reading}

theorem Note.Inside.up (h : n.Inside (place ++ [i])) : n.Inside place :=
  ⟨(List.prefix_append place [i]).trans h.place, h.surroundings⟩

/-- A single note of a place. -/
theorem inside_singleton {happening : Happening}
    (hs : (Note.mk place happening).surroundings? = none) (h : n ∈ [⟨place, happening⟩]) :
    n.Inside place := by
  obtain rfl := List.mem_singleton.1 h
  exact ⟨List.prefix_refl _, hs⟩

theorem inside_uses (h : n ∈ uses place us) : n.Inside place := by
  obtain ⟨u, -, rfl⟩ := List.mem_map.1 h
  exact ⟨List.prefix_refl _, rfl⟩

theorem inside_derivation {outer : Params} {isNew : Bool} {scope : Scope}
    (h : n ∈ derivation place outer isNew scope) : n.Inside place := by
  cases scope with
  | shared => cases h
  | derived args values current =>
    cases isNew with
    | false => cases h
    | true => exact inside_singleton rfl h

theorem inside_scopeNotes {outer : Params} {isNew : Bool} {scope scope' : Scope}
    (h : n ∈ scopeNotes place outer scope scope' isNew) : n.Inside place :=
  (List.mem_append.1 h).elim inside_uses inside_derivation

theorem inside_settlement {x y : Option Settled} (h : n ∈ settlement place x y) : n.Inside place := by
  cases x with
  | some _ => cases h
  | none =>
    cases y with
    | none => cases h
    | some _ => exact inside_singleton rfl h

theorem inside_startOver {body : Sequence Step} (h : n ∈ startOver place body) : n.Inside place := by
  unfold startOver at h
  split at h
  · exact inside_singleton rfl h
  · cases h

/-- The notes of a round of a loop. -/
theorem inside_round {ns : List Note} (hns : ∀ n ∈ ns, n.Inside (place ++ [0])) (body : Sequence Step) :
    ∀ n ∈ ns ++ startOver (place ++ [0]) body, n.Inside place :=
  List.forall_mem_append.2 ⟨fun n hn => (hns n hn).up, fun _ hn => (inside_startOver hn).up⟩

theorem inside_argNotes {params inner : Params} {f : FireStep}
    (h : n ∈ f.argNotes place params inner) : n.Inside (place ++ [0]) := by
  unfold FireStep.argNotes at h
  split at h
  · rcases List.mem_append.1 h with h | h
    · exact inside_uses h
    · exact inside_singleton rfl h
  · cases h

/-- The formula that counts for a heading is one of the fire or one of the definition. -/
theorem FireStep.mem_headingBy {β : Type} {own inner : β} {f : FireStep} {u : Formula × β}
    (h : u ∈ f.headingBy own inner) :
    u.1 ∈ f.fire.formulas ∧ u.2 = own ∨ u.1 ∈ f.definition.formulas ∧ u.2 = inner := by
  unfold headingBy at h
  split at h
  · next spec hs =>
    obtain rfl := List.mem_singleton.1 h
    exact .inl ⟨by simp [Fire.formulas, hs], rfl⟩
  · next spec _ hs =>
    obtain rfl := List.mem_singleton.1 h
    exact .inr ⟨by simp [BulletDef.formulas, hs], rfl⟩
  · cases h

/-- The formula that counts for a speed is one of the fire or one of the definition. -/
theorem FireStep.mem_paceBy {β : Type} {own inner : β} {f : FireStep} {u : Formula × β}
    (h : u ∈ f.paceBy own inner) :
    u.1 ∈ f.fire.formulas ∧ u.2 = own ∨ u.1 ∈ f.definition.formulas ∧ u.2 = inner := by
  unfold paceBy at h
  split at h
  · next spec hs =>
    obtain rfl := List.mem_singleton.1 h
    exact .inl ⟨by simp [Fire.formulas, hs], rfl⟩
  · next spec _ hs =>
    obtain rfl := List.mem_singleton.1 h
    exact .inr ⟨by simp [BulletDef.formulas, hs], rfl⟩
  · cases h

theorem inside_headingNotes {params inner : Params} {f : FireStep}
    (h : n ∈ f.headingNotes place params inner) : n.Inside (place ++ [0]) := by
  obtain ⟨u, hu, rfl⟩ := List.mem_map.1 h
  rcases FireStep.mem_headingBy hu with ⟨-, hu⟩ | ⟨-, hu⟩ <;> rw [hu]
  · exact ⟨List.prefix_refl _, rfl⟩
  · exact ⟨by simp, rfl⟩

theorem inside_paceNotes {params inner : Params} {f : FireStep}
    (h : n ∈ f.paceNotes place params inner) : n.Inside (place ++ [0]) := by
  obtain ⟨u, hu, rfl⟩ := List.mem_map.1 h
  rcases FireStep.mem_paceBy hu with ⟨-, hu⟩ | ⟨-, hu⟩ <;> rw [hu]
  · exact ⟨List.prefix_refl _, rfl⟩
  · exact ⟨by simp, rfl⟩

end Inside

section

variable {stage : Stage} {place : Place} {params : Params} {ns : List Note}

omit [BulletFactory φ α] in
/-- What a fire asks for, it asks for its bullet. -/
theorem Turn.Asks.inside {f : FireStep} {t : Turn φ ρ α} {x : Except EvalError Request × Turn φ ρ α}
    (h : t.Asks stage place params f ns x) : ∀ n ∈ ns, n.Inside (place ++ [0]) := by
  cases h with
  | argsFail => exact fun n hn => inside_uses hn
  | headingFails => exact List.forall_mem_append.2 ⟨fun _ => inside_argNotes, fun _ => inside_headingNotes⟩
  | paceFails | asked =>
    exact List.forall_mem_append.2 ⟨List.forall_mem_append.2
      ⟨fun _ => inside_argNotes, fun _ => inside_headingNotes⟩, fun _ => inside_paceNotes⟩

theorem FireStep.Notes.inside {f : FireStep} {t : Turn φ ρ α} {o : Outcome FireStep (Turn φ ρ α)}
    (h : f.Notes stage place params t ns o) : ∀ n ∈ ns, n.Inside place := by
  have hentry (scope : Scope) (isNew : Bool) :
      ∀ n ∈ f.entryNotes place params scope isNew, n.Inside place := by
    exact List.forall_mem_append.2 ⟨fun _ => inside_scopeNotes, fun n hn => (inside_singleton rfl hn).up⟩
  cases h with
  | scopeFails => exact fun _ => inside_uses
  | fails _ ha => exact List.forall_mem_append.2 ⟨hentry _ _, fun n hn => (ha.inside n hn).up⟩
  | fires _ ha =>
    exact List.forall_mem_append.2 ⟨List.forall_mem_append.2
      ⟨hentry _ _, fun n hn => (ha.inside n hn).up⟩, fun n hn => inside_singleton rfl hn⟩

/-- All notes of a turn are of the place of the step or of one below it. -/
theorem Step.Notes.inside {s : Step} {t : Turn φ ρ α} {o : Outcome Step (Turn φ ρ α)}
    (h : s.Notes stage place params t ns o) : ∀ n ∈ ns, n.Inside place := by
  induction h with
  | done | vanish | ended | exhausted => exact List.forall_mem_nil _
  | scopeFails | countFails => exact fun _ => inside_uses
  | current _ _ _ ih =>
    exact List.forall_mem_append.2 ⟨fun _ => inside_scopeNotes, fun n hn => (ih n hn).up⟩
  | fire h => exact h.inside
  | mutation | wait =>
    exact List.forall_mem_append.2 ⟨fun _ => inside_uses, fun _ => inside_settlement⟩
  | entered _ _ _ ih =>
    exact List.forall_mem_append.2
      ⟨List.forall_mem_append.2 ⟨fun _ => inside_uses, fun n hn => inside_singleton rfl hn⟩, ih⟩
  | fails _ _ _ _ ih => exact fun n hn => (ih n hn).up
  | yields _ _ _ _ _ ih => exact inside_round ih _
  | again _ _ _ _ _ _ ih ih' => exact List.forall_mem_append.2 ⟨inside_round ih _, ih'⟩

end

/-! ## The notes and the journal -/

/-- The evaluation that an event tells of. -/
def Event.reading? : Event → Option Reading
  | .evaluated formula params => some (formula, params)
  | _ => none

/-- The evaluations in the journal of a turn, in order. -/
def Turn.readings (t : Turn φ ρ α) : List Reading := t.journal.toList.filterMap Event.reading?

/-- The evaluations that notes tell of, in order. -/
def readings (ns : List Note) : List Reading := ns.filterMap Note.reading?

@[simp] theorem readings_append (ns ns' : List Note) :
    readings (ns ++ ns') = readings ns ++ readings ns' := List.filterMap_append

@[simp] theorem readings_uses (place : Place) (us : List Reading) : readings (uses place us) = us := by
  unfold readings uses
  rw [List.filterMap_map]
  exact List.filterMap_some

@[simp] theorem readings_derivation (place : Place) (outer : Params) (isNew : Bool) (scope : Scope) :
    readings (derivation place outer isNew scope) = [] := by
  rcases scope with _ | ⟨args, values, current⟩
  · rfl
  · cases isNew <;> rfl

@[simp] theorem readings_scopeNotes (place : Place) (outer : Params) (scope scope' : Scope) (isNew : Bool) :
    readings (scopeNotes place outer scope scope' isNew) = against outer scope.pending := by
  rw [scopeNotes, readings_append, readings_uses, readings_derivation, List.append_nil]

@[simp] theorem readings_settlement (place : Place) (x y : Option Settled) :
    readings (settlement place x y) = [] := by
  cases x <;> cases y <;> rfl

@[simp] theorem readings_startOver (place : Place) (body : Sequence Step) :
    readings (startOver place body) = [] := by
  unfold startOver
  split <;> rfl

namespace FireStep

variable (place : Place) (params inner : Params) (f : FireStep)

@[simp] theorem readings_argNotes :
    readings (f.argNotes place params inner) = against params (f.args.getD []) := by
  unfold argNotes
  cases f.args with
  | none => rfl
  | some args =>
    rw [readings_append, readings_uses]
    exact List.append_nil _

@[simp] theorem readings_headingNotes :
    readings (f.headingNotes place params inner) = f.headingBy params inner := by
  unfold headingNotes headingBy
  split <;> rfl

@[simp] theorem readings_paceNotes :
    readings (f.paceNotes place params inner) = f.paceBy params inner := by
  unfold paceNotes paceBy
  split <;> rfl

@[simp] theorem readings_entryNotes (outer : Params) (scope : Scope) (isNew : Bool) :
    readings (f.entryNotes place outer scope isNew) = against outer f.scope.pending := by
  rw [entryNotes, readings_append, readings_scopeNotes]
  exact List.append_nil _

end FireStep

namespace Turn

omit [RandomSource ρ] [BulletFactory φ α] in
/-- An event that is no evaluation. -/
theorem readings_of_push {t t' : Turn φ ρ α} {e : Event} (hj : t'.journal = t.journal.push e)
    (he : e.reading? = none) : t'.readings = t.readings := by
  unfold readings
  rw [hj, Array.toList_push, List.filterMap_append]
  simp [he]

omit [RandomSource ρ] [BulletFactory φ α] in
theorem readings_spend (t : Turn φ ρ α) : t.spend.readings = t.readings :=
  readings_of_push (e := .iterated) rfl rfl

omit [RandomSource ρ] [BulletFactory φ α] in
theorem Reads.readings {t t' : Turn φ ρ α} {us : List Reading} (h : t.Reads us t') :
    t'.readings = t.readings ++ us := by
  have hus : (us.map fun u => Event.evaluated u.1 u.2).filterMap Event.reading? = us := by
    rw [List.filterMap_map]
    exact List.filterMap_some
  unfold Turn.readings
  rw [h.logs, List.filterMap_append, hus]

omit [BulletFactory φ α] in
/-- What a fire asks for takes nothing but the evaluations of its notes. -/
theorem Asks.reads {stage : Stage} {place : Place} {params : Params} {f : FireStep} {t : Turn φ ρ α}
    {ns : List Note} {x : Except EvalError Request × Turn φ ρ α} (h : t.Asks stage place params f ns x) :
    t.Reads (Barrage.readings ns) x.2 := by
  have hparams {inner : Params} {t₁ : Turn φ ρ α} (hr : t.bulletParams stage params f = (.ok inner, t₁)) :
      t.Reads (against params (f.args.getD [])) t₁ := by
    have hargs := (consults_bulletParams stage params f t).reads (congrArg Prod.fst hr)
    rwa [hr] at hargs
  cases h with
  | argsFail _ _ hu =>
    rw [readings_uses]
    exact hu
  | @headingFails inner t₁ e t₂ hr hh =>
    have hheading := reads_bulletHeading stage params inner f t₁
    rw [hh] at hheading
    simpa using (hparams hr).trans hheading
  | @paceFails inner t₁ _ t₂ _ _ hr hh hp | @asked inner t₁ _ t₂ _ _ hr hh hp =>
    have hheading := reads_bulletHeading stage params inner f t₁
    have hpace := reads_bulletPace stage params inner f t₂
    rw [hh] at hheading
    rw [hp] at hpace
    simpa using ((hparams hr).trans hheading).trans hpace

end Turn

section

variable {stage : Stage} {place : Place} {params : Params} {ns : List Note}

theorem FireStep.Notes.readings {f : FireStep} {t : Turn φ ρ α} {o : Outcome FireStep (Turn φ ρ α)}
    (h : f.Notes stage place params t ns o) : o.turn.readings = t.readings ++ Barrage.readings ns := by
  have hbegan : (t.log (.began .fire)).readings = t.readings := Turn.readings_of_push rfl rfl
  have hentry {scope : Scope} {isNew : Bool} {t₁ : Turn φ ρ α}
      (hr : (t.log (.began .fire)).resolve stage params f.scope = (.ok (scope, isNew), t₁)) :
      t₁.readings = t.readings ++ against params f.scope.pending := by
    have hreads := (Turn.consults_resolve stage params f.scope (t.log (.began .fire))).reads
      (congrArg Prod.fst hr)
    rw [hr] at hreads
    rw [← hbegan]
    exact hreads.readings
  cases h with
  | scopeFails _ _ hu =>
    rw [readings_uses, ← hbegan]
    exact hu.readings
  -- Below the fire the bullet starts over, which evaluates nothing.
  | fails hr ha =>
    have hasks := ha.reads.readings
    rw [hentry hr] at hasks
    simpa using hasks
  | @fires scope isNew t₁ ns r t₂ hr ha =>
    have hasks := ha.reads.readings
    rw [hentry hr] at hasks
    have hmake : (t₂.make stage f.definition r).readings = t₂.readings :=
      Turn.readings_of_push (e := .created _) rfl rfl
    have hleave : ((t₂.make stage f.definition r).leave .fire false none).readings
        = (t₂.make stage f.definition r).readings := Turn.readings_of_push rfl rfl
    have hshot : Barrage.readings [⟨place, .fired (t₂.shot f r)⟩] = [] := rfl
    rw [hleave, hmake, readings_append, readings_append, hshot]
    simpa using hasks

/-- The evaluations in the journal of a turn are those of its notes, in order. -/
theorem Step.Notes.readings {s : Step} {t : Turn φ ρ α} {o : Outcome Step (Turn φ ρ α)}
    (h : s.Notes stage place params t ns o) : o.turn.readings = t.readings ++ Barrage.readings ns := by
  -- The only events that tell of evaluations are those that the evaluations themselves log.
  induction h with
  | done | ended => exact (List.append_nil _).symm
  | exhausted => exact (Turn.readings_of_push (e := .exhausted) rfl rfl).trans (List.append_nil _).symm
  | @vanish _ _ _ t =>
    have hbegan : (t.log (.began .vanish)).readings = t.readings := Turn.readings_of_push rfl rfl
    refine Eq.trans ?_ (hbegan.trans (List.append_nil _).symm)
    exact Turn.readings_of_push (t := { t.log (.began .vanish) with removed := true })
      (e := .ended .vanish false none) rfl rfl
  | scopeFails _ _ hu =>
    rw [readings_uses]
    exact hu.readings
  | @current _ params s t _ _ t₁ _ _ _ hr _ _ ih =>
    have hreads := (Turn.consults_resolve stage params s.scope t).reads (congrArg Prod.fst hr)
    rw [hr] at hreads
    rw [hreads.readings] at ih
    show (Sequence.settle _ _).turn.readings = _
    rw [Sequence.turn_settle]
    simpa using ih
  | fire h => exact h.readings
  | @mutation _ params m t _ _ hu =>
    have hbegan : (t.log (.began .mutation)).readings = t.readings := Turn.readings_of_push rfl rfl
    rw [readings_append, readings_uses, readings_settlement, List.append_nil]
    show (m.dispatch stage params t).turn.readings = _
    rcases m.dispatch_cases stage params t with ⟨_, t', hs, -, h⟩ | ⟨g, t', m', hs, -, -, h⟩ <;>
      rw [hs] at hu <;> rw [h, ← hbegan, ← hu.readings]
    -- One that does not fail also steers and ends.
    have hsteer : ({ t' with owner := m.steering.write t'.owner (g.valueAt m'.elapsed) }.log
        .steered).readings = t'.readings := Turn.readings_of_push (e := .steered) rfl rfl
    exact (Turn.readings_of_push (e := .ended _ _ _) rfl rfl).trans hsteer
  | @wait _ params w t _ _ hu =>
    have hbegan : (t.log (.began .wait)).readings = t.readings := Turn.readings_of_push rfl rfl
    rw [readings_append, readings_uses, readings_settlement, List.append_nil]
    show (w.dispatch stage params t).turn.readings = _
    rcases w.dispatch_cases stage params t with ⟨_, t', hp, -, h⟩ | ⟨d, t', w', hp, -, -, h⟩ <;>
      rw [hp] at hu <;> rw [h, ← hbegan, ← hu.readings]
    exact Turn.readings_of_push (e := .ended _ _ _) rfl rfl
  | @countFails _ params l t _ _ _ hr =>
    have hreads := Turn.reads_eval stage params l.times t
    rw [hr] at hreads
    rw [readings_uses]
    exact hreads.readings
  | @entered _ params l t x _ _ _ _ hr _ ih =>
    have hreads := Turn.reads_eval stage params l.times t
    rw [hr] at hreads
    have hcount (place : Place) : Barrage.readings [⟨place, .settled (.count x.count.toNat)⟩] = [] := rfl
    rw [hreads.readings] at ih
    rw [readings_append, readings_append, readings_uses, hcount]
    simpa [against] using ih
  | @fails _ _ _ t _ _ _ _ _ _ _ _ ih =>
    rw [t.readings_spend] at ih
    exact ih
  | @yields _ _ _ t _ _ _ _ _ _ _ _ ih =>
    rw [t.readings_spend] at ih
    rw [readings_append, readings_startOver, List.append_nil]
    exact ih
  | @again _ _ _ t _ _ _ _ _ _ _ _ _ _ _ ih ih' =>
    rw [t.readings_spend] at ih
    rw [ih', readings_append, readings_append, readings_startOver, List.append_nil, ← List.append_assoc]
    exact congrArg (· ++ _) ih

end

end Barrage
