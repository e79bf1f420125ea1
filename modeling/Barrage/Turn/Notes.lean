import Barrage.Turn.Contract
import Barrage.Turn.Place
import Barrage.Turn.Readings

/-!
# Notes of a turn

The journal of a turn does not say where in the tree something happened. Notes do. A turn makes them
beside the journal, in the same order, and no step can read them.

* `Happening`, `Note`: what may happen at a place.
* `Turn.Asks`, `FireStep.Notes`, `Step.Notes`: the notes of a turn, with one constructor for each thing that
  a part can do.
* `Sequence.advance_notes`: every turn has notes.
* `Each`: something holds of each of some notes and of the notes before it.
-/

namespace Barrage

/-- What was asked of a factory for a bullet, and the heading and the speed that the bullet came with. -/
structure Shot where
  heading : Scalar
  pace : Scalar
  direction : Scalar
  speed : Scalar
deriving DecidableEq

/-- What may happen at a place in a tree. -/
inductive Happening where
  /-- These are the parameters around the place from now on. -/
  | surrounded (params : Params)
  /-- What is at the place starts over. -/
  | restarted
  /-- The arguments of the reference at the place were evaluated against the parameters around it. -/
  | derived (args : List Formula) (outer values : Params)
  /-- A formula was evaluated at the place. -/
  | used (formula : Formula) (params : Params)
  /-- The step at the place settled on a value. -/
  | settled (value : Settled)
  /-- The fire at the place made a bullet. -/
  | fired (shot : Shot)
deriving DecidableEq

/-- Something that happened, and where. -/
structure Note where
  place : Place
  happening : Happening
deriving DecidableEq

namespace Note

/-- The evaluation that a note tells of. -/
def reading? (n : Note) : Option Reading :=
  match n.happening with
  | .used formula params => some (formula, params)
  | _ => none

/-- The bullet that a note tells of. -/
def shot? (n : Note) : Option Shot :=
  match n.happening with
  | .fired shot => some shot
  | _ => none

/-- The parameters around the tree that a note tells of. -/
def surroundings? (n : Note) : Option Params :=
  match n.happening with
  | .surrounded params => some params
  | _ => none

end Note

/-- The notes of some evaluations at a place. -/
def uses (place : Place) (us : List Reading) : List Note := us.map fun u => ⟨place, .used u.1 u.2⟩

/-- The note of a scope whose arguments were evaluated now. -/
def derivation (place : Place) (outer : Params) (isNew : Bool) : Scope → List Note
  | .derived args values _ => if isNew then [⟨place, .derived args outer values⟩] else []
  | .shared => []

/-- The notes of entering a scope, which leaves it as the second one. -/
def scopeNotes (place : Place) (outer : Params) (scope scope' : Scope) (isNew : Bool) : List Note :=
  uses place (against outer scope.pending) ++ derivation place outer isNew scope'

/-- The note of a value that a step settled on now. -/
def settlement (place : Place) : Option Settled → Option Settled → List Note
  | none, some value => [⟨place, .settled value⟩]
  | _, _ => []

/-- The note of the body of a loop that starts over if it is done. -/
def startOver (place : Place) (body : Sequence Step) : List Note :=
  if body.isDone then [⟨place, .restarted⟩] else []

namespace FireStep

/-- The notes of the arguments of a bullet, all of which were evaluated. -/
def argNotes (place : Place) (params inner : Params) (f : FireStep) : List Note :=
  match f.args with
  | some args => uses (place ++ [0]) (against params args) ++ [⟨place ++ [0], .derived args params inner⟩]
  | none => []

/-- The note of the heading of a bullet: the fire has it evaluated around its bullet, the definition inside. -/
def headingNotes (place : Place) (params inner : Params) (f : FireStep) : List Note :=
  (f.headingBy (place ++ [0], params) (place ++ [0, 0], inner)).map fun u => ⟨u.2.1, .used u.1 u.2.2⟩

/-- The note of the speed of a bullet. -/
def paceNotes (place : Place) (params inner : Params) (f : FireStep) : List Note :=
  (f.paceBy (place ++ [0], params) (place ++ [0, 0], inner)).map fun u => ⟨u.2.1, .used u.1 u.2.2⟩

end FireStep

variable {φ ρ α : Type} [RandomSource ρ]

/-- The notes of what a fire with the given parameters asks for. -/
inductive Turn.Asks (stage : Stage) (place : Place) (params : Params) (f : FireStep) (t : Turn φ ρ α) :
    List Note → Except EvalError Request × Turn φ ρ α → Prop where
  | argsFail {e t₁ fs} (hr : t.bulletParams stage params f = (.error e, t₁))
    (hfs : fs <+: f.args.getD []) (hu : t.Reads (against params fs) t₁) :
    Asks stage place params f t (uses (place ++ [0]) (against params fs)) (.error e, t₁)
  | headingFails {inner t₁ e t₂} (hr : t.bulletParams stage params f = (.ok inner, t₁))
    (hh : t₁.bulletHeading stage params inner f = (.error e, t₂)) :
    Asks stage place params f t (f.argNotes place params inner ++ f.headingNotes place params inner)
      (.error e, t₂)
  | paceFails {inner t₁ heading t₂ e t₃} (hr : t.bulletParams stage params f = (.ok inner, t₁))
    (hh : t₁.bulletHeading stage params inner f = (.ok heading, t₂))
    (hp : t₂.bulletPace stage params inner f = (.error e, t₃)) :
    Asks stage place params f t (f.argNotes place params inner ++ f.headingNotes place params inner
      ++ f.paceNotes place params inner) (.error e, t₃)
  | asked {inner t₁ heading t₂ pace t₃} (hr : t.bulletParams stage params f = (.ok inner, t₁))
    (hh : t₁.bulletHeading stage params inner f = (.ok heading, t₂))
    (hp : t₂.bulletPace stage params inner f = (.ok pace, t₃)) :
    Asks stage place params f t (f.argNotes place params inner ++ f.headingNotes place params inner
      ++ f.paceNotes place params inner) (.ok ⟨inner, heading, pace⟩, t₃)

/-- What was asked for, and the heading and speed of what the factory makes of it. -/
def Turn.shot [BulletFactory φ α] (f : FireStep) (r : Request) (t : Turn φ ρ α) : Shot :=
  let bullet := (BulletFactory.create f.definition t.owner r.heading r.pace t.factory).1
  ⟨r.heading, r.pace, bullet.direction, bullet.speed⟩

/-- The notes of a fire before it asks for anything. The arguments of the bullet are evaluated anew. -/
def FireStep.entryNotes (place : Place) (outer : Params) (scope : Scope) (isNew : Bool) (f : FireStep) :
    List Note :=
  scopeNotes place outer f.scope scope isNew ++ [⟨place ++ [0], .restarted⟩]

/-- The notes of the turn of a fire. -/
inductive FireStep.Notes [BulletFactory φ α] (stage : Stage) (place : Place) (outer : Params)
    (f : FireStep) (t : Turn φ ρ α) : List Note → Outcome FireStep (Turn φ ρ α) → Prop where
  | scopeFails {e t₁ fs} (hr : (t.log (.began .fire)).resolve stage outer f.scope = (.error e, t₁))
    (hfs : fs <+: f.scope.pending) (hu : (t.log (.began .fire)).Reads (against outer fs) t₁) :
    Notes stage place outer f t (uses place (against outer fs)) ⟨f, t₁, some (.evaluation e)⟩
  | fails {scope isNew t₁ ns e t₂}
    (hr : (t.log (.began .fire)).resolve stage outer f.scope = (.ok (scope, isNew), t₁))
    (ha : t₁.Asks stage place (scope.params outer) { f with scope } ns (.error e, t₂)) :
    Notes stage place outer f t (f.entryNotes place outer scope isNew ++ ns)
      ⟨{ f with scope }, t₂, some (.evaluation e)⟩
  | fires {scope isNew t₁ ns r t₂}
    (hr : (t.log (.began .fire)).resolve stage outer f.scope = (.ok (scope, isNew), t₁))
    (ha : t₁.Asks stage place (scope.params outer) { f with scope } ns (.ok r, t₂)) :
    Notes stage place outer f t
      (f.entryNotes place outer scope isNew ++ ns ++ [⟨place, .fired (t₂.shot f r)⟩])
      ⟨{ f with scope, fired := true }, (t₂.make stage f.definition r).leave .fire false none, none⟩

/-- The notes of the turn of a step at a place, with the parameters around it. -/
inductive Step.Notes [BulletFactory φ α] (stage : Stage) :
    Place → Params → Step → Turn φ ρ α → List Note → Outcome Step (Turn φ ρ α) → Prop where
  | done {place params s t} (hd : s.isDone = true) :
    Notes stage place params (.sequence s) t [] ⟨.sequence s, t, none⟩
  | scopeFails {place params s t e t₁ fs} (hr : t.resolve stage params s.scope = (.error e, t₁))
    (hfs : fs <+: s.scope.pending) (hu : t.Reads (against params fs) t₁) :
    Notes stage place params (.sequence s) t (uses place (against params fs))
      ⟨.sequence s, t₁, some (.evaluation e)⟩
  | current {place params s t scope isNew t₁ step ns o}
    (hr : t.resolve stage params s.scope = (.ok (scope, isNew), t₁))
    (hc : (s.withScope scope isNew).current? = some step)
    (h : Notes stage (place ++ [s.cursor]) (scope.params params) step t₁ ns o) :
    Notes stage place params (.sequence s) t
      (scopeNotes place params s.scope scope isNew ++ ns)
      (((s.withScope scope isNew).settle o).map .sequence)
  | fire {place params f t ns o} (h : f.Notes stage place params t ns o) :
    Notes stage place params (.fire f) t ns (o.map .fire)
  | mutation {place params m t fs}
    (hfs : fs <+: m.pending)
    (hu : (t.log (.began .mutation)).Reads (against params fs)
      ((t.log (.began .mutation)).settle stage params m).2) :
    Notes stage place params (.mutation m) t
      (uses place (against params fs)
        ++ settlement place (m.glide.map .glide) ((m.dispatch stage params t).step.glide.map .glide))
      ((m.dispatch stage params t).map .mutation)
  | wait {place params w t fs}
    (hfs : fs <+: w.pending)
    (hu : (t.log (.began .wait)).Reads (against params fs)
      ((t.log (.began .wait)).pauseFor stage params w).2) :
    Notes stage place params (.wait w) t
      (uses place (against params fs)
        ++ settlement place (w.duration.map .pause) ((w.dispatch stage params t).step.duration.map .pause))
      ((w.dispatch stage params t).map .wait)
  | vanish {place params triggered t} :
    Notes stage place params (.vanish triggered) t []
      ⟨.vanish true, { t.log (.began .vanish) with removed := true }.leave .vanish false none, none⟩
  | countFails {place params l t e t₁} (hl : l.target = none)
    (hr : t.eval stage params l.times = (.error e, t₁)) :
    Notes stage place params (.loop l) t (uses place (against params [l.times]))
      ⟨.loop l, t₁, some (.evaluation e)⟩
  | entered {place params l t x t₁ ns o} (hl : l.target = none)
    (hr : t.eval stage params l.times = (.ok x, t₁))
    (h : Notes stage place params (.loop { l with target := some x.count.toNat }) t₁ ns o) :
    Notes stage place params (.loop l) t
      (uses place (against params [l.times]) ++ [⟨place, .settled (.count x.count.toNat)⟩] ++ ns) o
  | ended {place params l t n} (hl : l.target = some n) (hn : n ≤ l.completed) :
    Notes stage place params (.loop l) t [] ⟨.loop l, t, none⟩
  | exhausted {place params l t n} (hl : l.target = some n) (hn : l.completed < n)
    (hb : t.budget = 0) : Notes stage place params (.loop l) t [] ⟨.loop l, t.exhaust, none⟩
  | fails {place params l t n ns e} {o : Outcome (Sequence Step) (Turn φ ρ α)} (hl : l.target = some n)
    (hn : l.completed < n)
    (h : Notes stage (place ++ [0]) params (.sequence l.body) t.spend ns (o.map .sequence))
    (he : o.error = some e) :
    Notes stage place params (.loop l) t ns ⟨.loop { l with body := o.step }, o.turn, some e⟩
  | yields {place params l t n ns} {o : Outcome (Sequence Step) (Turn φ ρ α)} (hl : l.target = some n)
    (hn : l.completed < n)
    (h : Notes stage (place ++ [0]) params (.sequence l.body) t.spend ns (o.map .sequence))
    (he : o.error = none) (hy : o.turn.mustYield = true) :
    Notes stage place params (.loop l) t (ns ++ startOver (place ++ [0]) o.step)
      ⟨.loop ({ l with body := o.step } : LoopStep Step).settle, o.turn, none⟩
  | again {place params l t n ns ns' o'} {o : Outcome (Sequence Step) (Turn φ ρ α)}
    (hl : l.target = some n) (hn : l.completed < n)
    (h : Notes stage (place ++ [0]) params (.sequence l.body) t.spend ns (o.map .sequence))
    (he : o.error = none) (hy : o.turn.mustYield = false)
    (h' : Notes stage place params (.loop ({ l with body := o.step } : LoopStep Step).settle) o.turn ns'
      o') :
    Notes stage place params (.loop l) t (ns ++ startOver (place ++ [0]) o.step ++ ns') o'

/-! ## Every turn has notes -/

theorem Turn.exists_asks (stage : Stage) (place : Place) (params : Params) (f : FireStep)
    (t : Turn φ ρ α) : ∃ ns, t.Asks stage place params f ns (t.request stage params f) := by
  obtain ⟨fs, hfs, hu, -⟩ := consults_bulletParams stage params f t
  rw [request]
  rcases hr : t.bulletParams stage params f with ⟨e | inner, t₁⟩
  · rw [hr] at hu
    exact ⟨_, .argsFail hr hfs hu⟩
  simp only
  rcases hh : t₁.bulletHeading stage params inner f with ⟨e | heading, t₂⟩
  · exact ⟨_, .headingFails hr hh⟩
  simp only
  rcases hp : t₂.bulletPace stage params inner f with ⟨e | pace, t₃⟩
  · exact ⟨_, .paceFails hr hh hp⟩
  · exact ⟨_, .asked hr hh hp⟩

variable [BulletFactory φ α]

theorem FireStep.exists_notes (stage : Stage) (place : Place) (outer : Params) (f : FireStep)
    (t : Turn φ ρ α) : ∃ ns, f.Notes stage place outer t ns (f.dispatch stage outer t) := by
  obtain ⟨fs, hfs, hu, -⟩ := Turn.consults_resolve stage outer f.scope (t.log (.began .fire))
  rw [dispatch]
  rcases hr : (t.log (.began .fire)).resolve stage outer f.scope with ⟨e | ⟨scope, isNew⟩, t₁⟩
  · rw [hr] at hu
    exact ⟨_, .scopeFails hr hfs hu⟩
  obtain ⟨ns, hns⟩ := t₁.exists_asks stage place (scope.params outer) { f with scope }
  simp only
  rcases hq : t₁.request stage (scope.params outer) { f with scope } with ⟨e | r, t₂⟩ <;> rw [hq] at hns
  · exact ⟨_, .fails hr hns⟩
  · exact ⟨_, .fires hr hns⟩

/-- Turns have notes, wherever they are. -/
def Contract.noted (stage : Stage) : Contract φ ρ α where
  sequence params s t o := ∀ place, ∃ ns, (Step.sequence s).Notes stage place params t ns (o.map .sequence)
  step params s t o := ∀ place, ∃ ns, s.Notes stage place params t ns o
  rounds params l t o := ∀ place, ∃ ns, (Step.loop l).Notes stage place params t ns (o.map .loop)

theorem Contract.noted_kept (stage : Stage) :
    (noted (φ := φ) (ρ := ρ) (α := α) stage).Kept stage where
  done hd _ := ⟨[], .done hd⟩
  scopeFails {params s t e t₁} _ hr place := by
    obtain ⟨fs, hfs, hu, -⟩ := Turn.consults_resolve stage params s.scope t
    rw [hr] at hu
    exact ⟨_, .scopeFails hr hfs hu⟩
  current {_ s _ _ _ _ _ _} _ hr hc ho place := by
    obtain ⟨ns, h⟩ := ho (place ++ [s.cursor])
    exact ⟨_, .current hr hc h⟩
  nested ho place := ho place
  fire params f t place := by
    obtain ⟨ns, h⟩ := f.exists_notes stage place params t
    exact ⟨ns, .fire h⟩
  mutation params m t place := by
    obtain ⟨fs, hfs, hu, -⟩ := Turn.consults_settle stage params m (t.log (.began .mutation))
    exact ⟨_, .mutation hfs hu⟩
  wait params w t place := by
    obtain ⟨fs, hfs, hu, -⟩ := Turn.consults_pauseFor stage params w (t.log (.began .wait))
    exact ⟨_, .wait hfs hu⟩
  vanish _ _ _ _ := ⟨[], .vanish⟩
  countFails hl hr _ := ⟨_, .countFails hl hr⟩
  entered hl hr ho place := by
    obtain ⟨ns, h⟩ := ho place
    exact ⟨_, .entered hl hr h⟩
  resumed _ ho place := ho place
  ended hl hn _ := ⟨[], .ended hl hn⟩
  exhausted hl hn hb _ := ⟨[], .exhausted hl hn hb⟩
  fails hl hn _ ho he place := by
    obtain ⟨ns, h⟩ := ho (place ++ [0])
    exact ⟨ns, .fails hl hn h he⟩
  yields hl hn _ ho he hy place := by
    obtain ⟨ns, h⟩ := ho (place ++ [0])
    exact ⟨_, .yields hl hn h he hy⟩
  again hl hn _ ho he hy hr place := by
    obtain ⟨ns, h⟩ := ho (place ++ [0])
    obtain ⟨ns', h'⟩ := hr place
    exact ⟨_, .again hl hn h he hy h'⟩

/-- Every turn of a sequence has notes. -/
theorem Sequence.advance_notes (stage : Stage) (place : Place) (params : Params) (s : Sequence Step)
    (t : Turn φ ρ α) :
    ∃ ns, (Step.sequence s).Notes stage place params t ns ((s.advance stage params t).map .sequence) :=
  (Contract.noted_kept stage).advance params s t place

/-! ## Note by note -/

/-- Something holds of each of some notes and of the notes before it. -/
def Each (P : List Note → Note → Prop) : List Note → List Note → Prop
  | _, [] => True
  | before, n :: rest => P before n ∧ Each P (before ++ [n]) rest

section Each

variable {P Q : List Note → Note → Prop} {before ns ns' : List Note}

theorem each_append : Each P before (ns ++ ns') ↔ Each P before ns ∧ Each P (before ++ ns) ns' := by
  induction ns generalizing before with
  | nil => simp [Each]
  | cons n rest ih => simp [Each, ih, and_assoc]

theorem each_singleton {n : Note} : Each P before [n] ↔ P before n := by simp [Each]

/-- What holds of notes whatever was before them. -/
theorem each_of_forall (h : ∀ n ∈ ns, ∀ before, P before n) : Each P before ns := by
  induction ns generalizing before with
  | nil => trivial
  | cons n rest ih =>
    obtain ⟨hn, hrest⟩ := List.forall_mem_cons.1 h
    exact ⟨hn before, ih hrest⟩

theorem each_iff : Each P before ns ↔
    ∀ first n rest, ns = first ++ n :: rest → P (before ++ first) n := by
  induction ns generalizing before with
  | nil => simp [Each]
  | cons n ns ih =>
    rw [Each, ih]
    constructor
    · rintro ⟨hn, hns⟩ first n' rest heq
      cases first with
      | nil =>
        cases heq
        rwa [List.append_nil]
      | cons m first =>
        obtain ⟨rfl, rfl⟩ := List.cons_eq_cons.1 heq
        have := hns first n' rest rfl
        rwa [List.append_assoc] at this
    · intro h
      refine ⟨?_, fun first n' rest heq => ?_⟩
      · have := h [] n ns rfl
        rwa [List.append_nil] at this
      · have := h (n :: first) n' rest (by rw [heq, List.cons_append])
        rwa [List.append_assoc]

end Each

end Barrage
