import Barrage.Swarm.Recorded
import Barrage.Turn.Carry
import Barrage.Turn.NoteLaws

/-!
# Bullets among the notes

* `LastFired.of`: what counts as fired last after some bullets.
* `shots`: the bullets that notes tell of. `Step.Notes.shoots`: they are those that the turn made, and the
  last of them counts as fired last.
* `Shot.Inherits`: a bullet takes what neither its fire nor its definition gives from the one before it.
  `Step.Notes.inherits`: so does every bullet of a turn.
-/

namespace Barrage

/-- Heading and speed of the last of some bullets. -/
def LastFired.of (shots : List Shot) : LastFired :=
  ⟨shots.getLast?.map (·.direction), shots.getLast?.map (·.speed)⟩

@[simp] theorem LastFired.of_append_singleton (xs : List Shot) (shot : Shot) :
    of (xs ++ [shot]) = ⟨some shot.direction, some shot.speed⟩ := by
  simp [of]

section Kinds

variable {α : Type}

/-- What was asked of the factory for a bullet that was made, and what came of it. -/
def Spawn.shot (w : Spawn α) : Shot :=
  ⟨w.request.heading, w.request.pace, w.bullet.direction, w.bullet.speed⟩

/-- What was asked in a call to a factory, and what came of it. -/
def Creation.shot (c : Creation α) : Shot := ⟨c.heading, c.pace, c.bullet.direction, c.bullet.speed⟩

end Kinds

/-- The bullets that notes tell of, in order. -/
def shots (ns : List Note) : List Shot := ns.filterMap Note.shot?

@[simp] theorem shots_append (ns ns' : List Note) : shots (ns ++ ns') = shots ns ++ shots ns' :=
  List.filterMap_append

/-! ## Notes without bullets -/

section Silent

variable (place : Place)

@[simp] theorem shots_uses (us : List Reading) : shots (uses place us) = [] := by
  refine List.filterMap_eq_nil_iff.2 fun n hn => ?_
  obtain ⟨u, -, rfl⟩ := List.mem_map.1 hn
  rfl

@[simp] theorem shots_derivation (outer : Params) (isNew : Bool) (scope : Scope) :
    shots (derivation place outer isNew scope) = [] := by
  rcases scope with _ | ⟨args, values, current⟩
  · rfl
  · cases isNew <;> rfl

@[simp] theorem shots_scopeNotes (outer : Params) (scope scope' : Scope) (isNew : Bool) :
    shots (scopeNotes place outer scope scope' isNew) = [] := by
  rw [scopeNotes, shots_append, shots_uses, shots_derivation]
  rfl

@[simp] theorem shots_settlement (x y : Option Settled) : shots (settlement place x y) = [] := by
  cases x <;> cases y <;> rfl

@[simp] theorem shots_startOver (body : Sequence Step) : shots (startOver place body) = [] := by
  unfold startOver
  split <;> rfl

namespace FireStep

variable (params inner : Params) (f : FireStep)

@[simp] theorem shots_argNotes : shots (f.argNotes place params inner) = [] := by
  unfold argNotes
  cases f.args with
  | none => rfl
  | some args =>
    rw [shots_append, shots_uses]
    rfl

@[simp] theorem shots_headingNotes : shots (f.headingNotes place params inner) = [] := by
  unfold headingNotes headingBy
  split <;> rfl

@[simp] theorem shots_paceNotes : shots (f.paceNotes place params inner) = [] := by
  unfold paceNotes paceBy
  split <;> rfl

@[simp] theorem shots_entryNotes (scope : Scope) (isNew : Bool) :
    shots (f.entryNotes place params scope isNew) = [] := by
  rw [entryNotes, shots_append, shots_scopeNotes]
  rfl

end FireStep

end Silent

variable {φ ρ α : Type} [RandomSource ρ]

/-- A fire that asks for something has made nothing yet. -/
theorem Turn.Asks.shots {stage : Stage} {place : Place} {params : Params} {f : FireStep}
    {t : Turn φ ρ α} {ns : List Note} {x : Except EvalError Request × Turn φ ρ α}
    (h : t.Asks stage place params f ns x) : Barrage.shots ns = [] := by
  cases h <;> simp

/-! ## What a fire inherits -/

/-- A bullet takes the heading that neither its fire nor its definition gives from what counts as fired
last, or else the aim; and likewise its speed, or else the given one. -/
structure Shot.Inherits (f : FireStep) (aim pace : Scalar) (last : LastFired) (shot : Shot) : Prop where
  heading : f.fire.direction = none → f.definition.direction = none →
    shot.heading = last.direction.getD aim
  pace : f.fire.speed = none → f.definition.speed = none → shot.pace = last.speed.getD pace

namespace Turn

variable {stage : Stage} {place : Place} {params : Params} {f : FireStep} {t t' : Turn φ ρ α}
  {ns : List Note}

omit [RandomSource ρ] in
theorem Draws.aim (h : t.Draws t') : t'.aim stage = t.aim stage := by
  rw [Turn.aim, h.owner, Turn.aim]

/-- What is not given for a bullet is inherited from what counted as fired last before its fire. -/
theorem Asks.inherits {r : Request} (h : t.Asks stage place params f ns (.ok r, t')) :
    (f.fire.direction = none → f.definition.direction = none →
      r.heading = t.last.direction.getD (t.aim stage)) ∧
    (f.fire.speed = none → f.definition.speed = none →
      r.pace = t.last.speed.getD stage.builder.config.defaultSpeed) := by
  cases h with
  | @asked inner t₁ heading t₂ pace _ hr hh hp =>
    have hparams := draws_bulletParams stage params f t
    have hheading := draws_bulletHeading stage params inner f t₁
    rw [hr] at hparams
    rw [hh] at hheading
    refine ⟨fun hown hdef => ?_, fun hown hdef => ?_⟩
    · rw [bulletHeading, hown, hdef] at hh
      cases hh
      rw [inheritedHeading, hparams.last, hparams.aim]
    · rw [bulletPace, hown, hdef] at hp
      cases hp
      rw [inheritedPace, hheading.last, hparams.last]

end Turn

/-! ## What a turn makes -/

/-- A turn made some bullets, and the last of them counts as fired last. It left the owner in its place. -/
structure Turn.Shoots (t t' : Turn φ ρ α) (xs : List Shot) : Prop where
  spawned : t'.spawned.toList.map Spawn.shot = t.spawned.toList.map Spawn.shot ++ xs
  last : ∀ made, t.last = .of made → t'.last = .of (made ++ xs)
  owner : t.owner.Steered t'.owner

namespace Turn

variable {stage : Stage} {t t' t'' : Turn φ ρ α} {xs xs' : List Shot}

omit [RandomSource ρ]

/-- A turn that made nothing. -/
theorem Shoots.none (hs : t'.spawned = t.spawned) (hl : t'.last = t.last)
    (ho : t.owner.Steered t'.owner) : t.Shoots t' [] where
  spawned := by rw [hs, List.append_nil]
  last made h := by rw [hl, h, List.append_nil]
  owner := ho

theorem Draws.shoots (h : t.Draws t') : t.Shoots t' [] :=
  .none h.spawned h.last (h.owner ▸ .refl _)

theorem Shoots.trans (h : t.Shoots t' xs) (h' : t'.Shoots t'' xs') : t.Shoots t'' (xs ++ xs') where
  spawned := by rw [h'.spawned, h.spawned, List.append_assoc]
  last made hmade := by rw [h'.last _ (h.last made hmade), List.append_assoc]
  owner := h.owner.trans h'.owner

theorem shoots_spend (t : Turn φ ρ α) : t.Shoots t.spend [] := .none rfl rfl (.refl _)

theorem Shoots.aim (h : t.Shoots t' xs) : t'.aim stage = t.aim stage := by
  rw [Turn.aim, h.owner.position, Turn.aim]

variable [BulletFactory φ α]

/-- What was made counts as fired last, as the factory made it. -/
theorem shoots_make (stage : Stage) (f : FireStep) (r : Request) (t : Turn φ ρ α) :
    t.Shoots ((t.make stage f.definition r).leave .fire false none) [t.shot f r] where
  spawned := by
    let bullet := (BulletFactory.create f.definition t.owner r.heading r.pace t.factory).1
    let w := Spawn.of f.definition r bullet (Runner.ofSpawn stage.builder f.definition r.params)
    have hspawned : ((t.make stage f.definition r).leave .fire false none).spawned
        = t.spawned.push w := rfl
    have hshot : w.shot = t.shot f r := by
      simp only [Spawn.shot, w, Spawn.request_of, Spawn.bullet_of]
      rfl
    rw [hspawned, Array.toList_push, List.map_append, List.map_singleton, hshot]
  last made _ := (LastFired.of_append_singleton made (t.shot f r)).symm
  owner := .refl _

end Turn

variable [BulletFactory φ α] {tree : Step} {stage : Stage} {place : Place} {params : Params}
  {ns : List Note}

theorem FireStep.Notes.shoots {f : FireStep} {t : Turn φ ρ α} {o : Outcome FireStep (Turn φ ρ α)}
    (h : f.Notes stage place params t ns o) : t.Shoots o.turn (Barrage.shots ns) := by
  have hbegan : t.Shoots (t.log (.began .fire)) [] := .none rfl rfl (.refl _)
  cases h with
  | scopeFails hr =>
    rw [shots_uses]
    exact hbegan.trans (Turn.Draws.of_resolve hr).shoots
  | fails hr ha =>
    rw [shots_append, shots_entryNotes, ha.shots]
    exact hbegan.trans ((Turn.Draws.of_resolve hr).shoots.trans ha.reads.draws.shoots)
  | fires hr ha =>
    rw [shots_append, shots_append, shots_entryNotes, ha.shots]
    have hasked := hbegan.trans ((Turn.Draws.of_resolve hr).shoots.trans ha.reads.draws.shoots)
    exact hasked.trans (Turn.shoots_make stage f _ _)

/-- The bullets of the notes of a turn are those that it made, and the last of them counts as fired
last. -/
theorem Step.Notes.shoots {s : Step} {t : Turn φ ρ α} {o : Outcome Step (Turn φ ρ α)}
    (h : s.Notes stage place params t ns o) : t.Shoots o.turn (Barrage.shots ns) := by
  -- Only fires make bullets, and only making one changes what counts as fired last.
  induction h with
  | done | ended | vanish | exhausted => exact .none rfl rfl (.refl _)
  | scopeFails hr =>
    rw [shots_uses]
    exact (Turn.Draws.of_resolve hr).shoots
  | current hr _ _ ih =>
    show Turn.Shoots _ (Sequence.settle _ _).turn _
    rw [Sequence.turn_settle]
    simpa using (Turn.Draws.of_resolve hr).shoots.trans ih
  | fire h => exact h.shoots
  | @mutation _ params m t _ _ _ =>
    have hsteered := (Turn.carries_steered stage).mutation params m t
    rw [shots_append, shots_uses, shots_settlement]
    rcases m.dispatch_cases stage params t with ⟨_, _, -, hd, hx⟩ | ⟨_, _, _, -, hd, -, hx⟩ <;>
      rw [hx] at hsteered ⊢
    · exact .none hd.spawned hd.last hsteered
    · exact .none hd.spawned hd.last hsteered
  | @wait _ params w t _ _ _ =>
    have hsteered := (Turn.carries_steered stage).wait params w t
    rw [shots_append, shots_uses, shots_settlement]
    rcases w.dispatch_cases stage params t with ⟨_, _, -, hd, hx⟩ | ⟨_, _, _, -, hd, -, hx⟩ <;>
      rw [hx] at hsteered ⊢
    · exact .none hd.spawned hd.last hsteered
    · exact .none hd.spawned hd.last hsteered
  | countFails _ hr =>
    rw [shots_uses]
    exact (Turn.Draws.of_eval hr).shoots
  | entered _ hr _ ih =>
    rw [shots_append, shots_append, shots_uses]
    exact (Turn.Draws.of_eval hr).shoots.trans ih
  | @fails _ _ _ t _ _ _ _ _ _ _ _ ih =>
    exact t.shoots_spend.trans ih
  | @yields _ _ _ t _ _ _ _ _ _ _ _ ih =>
    rw [shots_append, shots_startOver, List.append_nil]
    exact t.shoots_spend.trans ih
  | @again _ _ _ t _ _ _ _ _ _ _ _ _ _ _ ih ih' =>
    rw [shots_append, shots_append, shots_startOver, List.append_nil]
    exact (t.shoots_spend.trans ih).trans ih'

/-! ## Every bullet of a turn -/

/-- A bullet was made by the fire at its place in the tree and inherits from the bullets before it. -/
def Note.Inherits (tree : Step) (aim pace : Scalar) (made : List Shot) (before : List Note) (n : Note) :
    Prop :=
  ∀ shot, n.happening = .fired shot → ∃ f, tree.sub? n.place = some (.fire f) ∧
    shot.Inherits f aim pace (.of (made ++ shots before))

theorem each_inherits_of_silent {aim pace : Scalar} {made : List Shot} {before : List Note}
    (h : shots ns = []) : Each (Note.Inherits tree aim pace made) before ns := by
  refine each_of_forall fun n hn _ shot hshot => ?_
  have hnone := List.filterMap_eq_nil_iff.1 h n hn
  simp [Note.shot?, hshot] at hnone

variable {aim : Scalar} {made : List Shot} {before : List Note}

/-- A bullet of a fire inherits from the bullets before the turn of the fire. -/
theorem FireStep.Notes.inherits {f : FireStep} {t : Turn φ ρ α}
    {o : Outcome FireStep (Turn φ ρ α)} (h : f.Notes stage place params t ns o)
    (htree : tree.sub? place = some (Step.fire f).blank) (haim : t.aim stage = aim)
    (hlast : t.last = .of (made ++ shots before)) :
    Each (Note.Inherits tree aim stage.builder.config.defaultSpeed made) before ns := by
  cases h with
  | scopeFails => exact each_inherits_of_silent (shots_uses _ _)
  | fails _ ha =>
    refine each_inherits_of_silent ?_
    rw [shots_append, shots_entryNotes, ha.shots]
    rfl
  | @fires scope isNew t₁ ns r t₂ hr ha =>
    have hsilent : shots (f.entryNotes place params scope isNew ++ ns) = [] := by
      rw [shots_append, shots_entryNotes, ha.shots]
      rfl
    refine each_append.2 ⟨each_inherits_of_silent hsilent, each_singleton.2 fun shot hshot => ?_⟩
    cases hshot
    refine ⟨_, htree, ?_⟩
    -- Evaluating the scope changes neither where the owner is nor what was fired last.
    have hdraws : (t.log (.began .fire)).Draws t₁ := .of_resolve hr
    obtain ⟨hheading, hpace⟩ := ha.inherits
    rw [hdraws.last, hdraws.aim] at hheading
    rw [hdraws.last] at hpace
    rw [shots_append, hsilent, List.append_nil, ← hlast, ← haim]
    exact ⟨hheading, hpace⟩

/-- Every bullet of a turn inherits from the bullets before it. -/
theorem Step.Notes.inherits {s : Step} {t : Turn φ ρ α} {o : Outcome Step (Turn φ ρ α)}
    (h : s.Notes stage place params t ns o) (htree : tree.sub? place = some s.blank)
    (haim : t.aim stage = aim) (hlast : t.last = .of (made ++ shots before)) :
    Each (Note.Inherits tree aim stage.builder.config.defaultSpeed made) before ns := by
  -- What was made before the turn and in it so far is what it starts from, so the induction is for all of
  -- that.
  induction h generalizing before with
  | done | ended | vanish | exhausted => trivial
  | scopeFails | countFails => exact each_inherits_of_silent (shots_uses _ _)
  | mutation | wait => exact each_inherits_of_silent (by simp)
  | current hr hc _ ih =>
    have hdraws := Turn.Draws.of_resolve hr
    refine each_append.2 ⟨each_inherits_of_silent (by simp), ih (Sequence.sub?_current htree hc) ?_ ?_⟩
    · rw [hdraws.aim, haim]
    · rw [hdraws.last, hlast]
      simp
  | fire h => exact h.inherits htree haim hlast
  | @entered place params l _ x _ _ _ _ hr _ ih =>
    have hdraws := Turn.Draws.of_eval hr
    have hsilent : shots (uses place (against params [l.times])
        ++ [⟨place, .settled (.count x.count.toNat)⟩]) = [] := by
      rw [shots_append, shots_uses]
      rfl
    refine each_append.2 ⟨each_inherits_of_silent hsilent, ih ?_ ?_ ?_⟩
    · rw [htree, Step.blank_loop, Step.blank_loop]
    · rw [hdraws.aim, haim]
    · rw [hdraws.last, hlast, shots_append, hsilent, List.append_nil]
  | fails _ _ _ _ ih => exact ih (LoopStep.sub?_body htree) haim hlast
  | yields _ _ _ _ _ ih =>
    exact each_append.2 ⟨ih (LoopStep.sub?_body htree) haim hlast,
      each_inherits_of_silent (shots_startOver _ _)⟩
  | @again _ _ _ t _ _ _ _ _ _ _ h _ _ _ ih ih' =>
    -- The rounds to come inherit from what this one made.
    have hround : t.Shoots _ _ := t.shoots_spend.trans h.shoots
    have hbody := ih (LoopStep.sub?_body htree) haim hlast
    refine each_append.2 ⟨each_append.2 ⟨hbody, each_inherits_of_silent (shots_startOver _ _)⟩,
      ih' ?_ ?_ ?_⟩
    · rw [htree, Step.Notes.blank_round h.blank]
    · exact hround.aim.trans haim
    · refine (hround.last _ hlast).trans ?_
      simp

end Barrage
