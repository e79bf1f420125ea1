import Barrage.Swarm.Lemmas
import Barrage.Turn.Recorded

/-!
# What a record lists

* `Runner.tick_unrecorded`, `Swarm.tick_unrecorded`: no pattern and no swarm can tell whether its host
  keeps a record.
* `Spawn.IsMade`: a bullet that was made as its definition and the request for it say.
  `Spawn.IsMade.cases`: it has a runner, or a reason why there is none, or neither.
* `Turn.Makes`, `Sequence.advance_makes`: the bullets that a turn makes are those of the calls to the
  factory in it, in order.
* `Runner.tick_makes`, `Swarm.pass_makes`: the same for the ticks of a pattern and of several.
* `Runner.creations`, `Swarm.creations`: the calls to the factory of any host in a tick.
  `Runner.spawned_eq_creations`, `Swarm.spawned_eq_creations`: the bullets that are made are those.
-/

namespace Barrage

variable {φ ρ α : Type}

/-! ## The record does not show -/

namespace Runner

variable [RandomSource ρ] [BulletFactory φ α]

omit [RandomSource ρ] [BulletFactory φ α] in
theorem give_unrecorded (r : Runner) (o : Outcome (Sequence Step) (Turn (Recorder φ α) ρ α)) :
    r.give o.unrecorded = (r.give o).unrecorded := rfl

/-- A pattern has the same tick whether or not its host keeps a record. -/
theorem tick_unrecorded (r : Runner) (frame : Frame) (owner : Bullet α) (factory : Recorder φ α)
    (source : ρ) :
    r.tick frame owner factory.host source = (r.tick frame owner factory source).unrecorded := by
  rcases r.tick_cases frame owner factory source with ⟨hr, h⟩ | ⟨hr, hd, h⟩ | ⟨hr, hd, h⟩ <;> rw [h]
  · exact tick_of_stopped hr
  · exact tick_of_isDone hr hd
  · rw [tick_of_turn hr hd, ← give_unrecorded, ← Sequence.advance_unrecorded]
    rfl

end Runner

section Ticks

variable [RandomSource ρ] [BulletFactory φ α]

theorem Entry.tick_unrecorded (frame : Frame) (e : Entry α) (factory : Recorder φ α) (source : ρ) :
    e.tick frame factory.host source
      = ((e.tick frame factory source).1, (e.tick frame factory source).2.1.host,
          (e.tick frame factory source).2.2) := by
  unfold tick
  split
  · next r hr =>
    split
    · rw [r.tick_unrecorded frame e.bullet factory source]
      rfl
    · rfl
  · rfl

theorem Swarm.pass_unrecorded (frame : Frame) (entries : List (Entry α)) (factory : Recorder φ α)
    (source : ρ) :
    pass frame entries factory.host source = (pass frame entries factory source).unrecorded := by
  induction entries generalizing factory source with
  | nil => rfl
  | cons e rest ih =>
    rw [pass, pass, Entry.tick_unrecorded]
    simp only [ih]
    rfl

/-- A swarm has the same tick whether or not its host keeps a record. -/
theorem Swarm.tick_unrecorded (s : Swarm α) (frame : Frame) (factory : Recorder φ α) (source : ρ) :
    s.tick frame factory.host source = (s.tick frame factory source).unrecorded := by
  unfold tick
  rw [pass_unrecorded]
  rfl

end Ticks

/-! ## What the record lists -/

namespace Spawn

variable (definition : BulletDef Node) (r : Request) (bullet : Bullet α)
  (runner : Except StepError (Option Runner))

@[simp] theorem definition_of : (Spawn.of definition r bullet runner).definition = definition := by
  rcases runner with _ | _ <;> rfl

@[simp] theorem request_of : (Spawn.of definition r bullet runner).request = r := by
  rcases runner with _ | _ <;> rfl

@[simp] theorem bullet_of : (Spawn.of definition r bullet runner).bullet = bullet := by
  rcases runner with _ | _ <;> rfl

/-- A bullet that was made, with the runner of its pattern or the error of building it. -/
def IsMade (builder : Builder) (w : Spawn α) : Prop :=
  w = .of w.definition w.request w.bullet
    (Runner.ofSpawn builder w.definition w.request.params)

theorem isMade_of (builder : Builder) :
    (Spawn.of definition r bullet (Runner.ofSpawn builder definition r.params)).IsMade builder := by
  unfold IsMade
  rw [definition_of, request_of, bullet_of]

/-- A bullet that was made has a runner bound to it, or a reason why there is none, or neither. -/
theorem IsMade.cases {builder : Builder} {w : Spawn α} (h : w.IsMade builder) :
    (∃ x, Runner.ofBullet builder w.definition w.request.params = .error x ∧
      w.runner = none ∧ w.fault = some x) ∨
    (w.runner = none ∧ w.fault = none) ∨
    ∃ r, Runner.ofBullet builder w.definition w.request.params = .ok r ∧
      w.runner = some (r.bind w.bullet.id) ∧ w.fault = none := by
  rw [h, definition_of, request_of, bullet_of]
  unfold Runner.ofSpawn
  split
  · exact .inr (.inl ⟨rfl, rfl⟩)
  · cases Runner.ofBullet builder w.definition w.request.params with
    | error x => exact .inl ⟨x, rfl, rfl, rfl⟩
    | ok r => exact .inr (.inr ⟨r, rfl, rfl, rfl⟩)

end Spawn

namespace Turn

variable {builder : Builder} {t t' t'' : Turn (Recorder φ α) ρ α} {ws ws' : List (Spawn α)}

/-- The bullets that a turn made, which are those of the calls to the factory, in order. -/
structure Makes (builder : Builder) (t t' : Turn (Recorder φ α) ρ α) (ws : List (Spawn α)) :
    Prop where
  spawned : t'.spawned.toList = t.spawned.toList ++ ws
  creations : t'.factory.creations = t.factory.creations ++ ws.map Spawn.creation
  made : ∀ w ∈ ws, w.IsMade builder

theorem Makes.none (hs : t'.spawned = t.spawned) (hf : t'.factory = t.factory) :
    t.Makes builder t' [] := by
  refine ⟨?_, ?_, fun w hw => (by cases hw)⟩
  · rw [hs, List.append_nil]
  · rw [hf, List.map_nil, List.append_nil]

theorem Makes.trans (h : t.Makes builder t' ws) (h' : t'.Makes builder t'' ws') :
    t.Makes builder t'' (ws ++ ws') := by
  refine ⟨?_, ?_, fun w hw => ?_⟩
  · rw [h'.spawned, h.spawned, List.append_assoc]
  · rw [h'.creations, h.creations, List.map_append, List.append_assoc]
  · rcases List.mem_append.1 hw with hw | hw
    · exact h.made w hw
    · exact h'.made w hw

variable [BulletFactory φ α]

theorem makes_make (stage : Stage) (definition : BulletDef Node) (r : Request)
    (t : Turn (Recorder φ α) ρ α) :
    ∃ ws, t.Makes stage.builder (t.make stage definition r) ws := by
  let bullet := (BulletFactory.create definition t.owner r.heading r.pace t.factory).1
  let w := Spawn.of definition r bullet (Runner.ofSpawn stage.builder definition r.params)
  refine ⟨[w], Array.toList_push, ?_, fun w' hw => ?_⟩
  · have hw : w.creation = ⟨definition, r.heading, r.pace, bullet⟩ := by
      simp only [Spawn.creation, w, Spawn.definition_of, Spawn.request_of, Spawn.bullet_of]
    rw [List.map_singleton, hw]
    rfl
  · obtain rfl := List.mem_singleton.1 hw
    exact Spawn.isMade_of definition r bullet stage.builder

theorem carries_makes (stage : Stage) :
    Carries stage fun t t' : Turn (Recorder φ α) ρ α => ∃ ws, t.Makes stage.builder t' ws where
  refl _ := ⟨[], .none rfl rfl⟩
  trans := by
    rintro t t' t'' ⟨ws, h⟩ ⟨ws', h'⟩
    exact ⟨ws ++ ws', h.trans h'⟩
  draws h := ⟨[], .none h.spawned h.factory⟩
  began _ _ := ⟨[], .none rfl rfl⟩
  leave _ _ _ _ := ⟨[], .none rfl rfl⟩
  spend _ := ⟨[], .none rfl rfl⟩
  exhaust _ := ⟨[], .none rfl rfl⟩
  make t definition r := makes_make stage definition r t
  steer _ _ _ := ⟨[], .none rfl rfl⟩
  remove _ := ⟨[], .none rfl rfl⟩

end Turn

variable [RandomSource ρ] [BulletFactory φ α]

/-- The bullets that a turn makes are those of the calls to the factory in it, in order. -/
theorem Sequence.advance_makes (stage : Stage) (params : Params) (s : Sequence Step)
    (t : Turn (Recorder φ α) ρ α) :
    ∃ ws, t.Makes stage.builder (s.advance stage params t).turn ws :=
  (Turn.carries_makes stage).advance params s t

/-- The bullets that a tick of a pattern gives its host are those of the calls to the factory in it,
in order, whether or not it ends in an error. -/
theorem Runner.tick_makes (r : Runner) (frame : Frame) (owner : Bullet α)
    (factory : Recorder φ α) (source : ρ) :
    (r.tick frame owner factory source).factory.creations
        = factory.creations ++ (r.tick frame owner factory source).spawned.map Spawn.creation ∧
      ∀ w ∈ (r.tick frame owner factory source).spawned, w.IsMade r.builder := by
  rcases r.tick_cases frame owner factory source with ⟨-, h⟩ | ⟨-, -, h⟩ | ⟨-, -, h⟩ <;> rw [h]
  · exact ⟨(List.append_nil _).symm, fun w hw => by cases hw⟩
  · exact ⟨(List.append_nil _).symm, fun w hw => by cases hw⟩
  · obtain ⟨ws, hm⟩ := Sequence.advance_makes ⟨r.builder, frame⟩ r.params r.root
      (r.turn owner factory source)
    have hws : ((r.bindTo owner.id).give (r.root.advance ⟨r.builder, frame⟩ r.params
        (r.turn owner factory source))).spawned = ws := hm.spawned
    rw [hws]
    exact ⟨hm.creations, hm.made⟩

/-- The bullets that come of a pass are those of the calls to the factory in it, in order. Each was
made by the pattern of an entry. -/
theorem Swarm.pass_makes (frame : Frame) (entries : List (Entry α)) (factory : Recorder φ α)
    (source : ρ) :
    (pass frame entries factory source).factory.creations
        = factory.creations
          ++ (pass frame entries factory source).spawned.map Spawn.creation ∧
      ∀ w ∈ (pass frame entries factory source).spawned,
        ∃ e ∈ entries, ∃ r, e.runner = some r ∧ w.IsMade r.builder := by
  -- The record runs through the entries, so the induction is for all records.
  induction entries generalizing factory source with
  | nil => exact ⟨(List.append_nil _).symm, fun w hw => by cases hw⟩
  | cons e rest ih =>
    have htick : (e.tick frame factory source).2.1.creations
          = factory.creations ++ (e.tick frame factory source).2.2.2.1.map Spawn.creation ∧
        ∀ w ∈ (e.tick frame factory source).2.2.2.1, ∃ r, e.runner = some r ∧ w.IsMade r.builder := by
      rcases e.tick_cases frame factory source with ⟨-, h⟩ | ⟨r, hr, -, h⟩ <;> rw [h]
      · exact ⟨(List.append_nil _).symm, fun w hw => by cases hw⟩
      · obtain ⟨hc, hm⟩ := r.tick_makes frame e.bullet factory source
        exact ⟨hc, fun w hw => ⟨r, hr, hm w hw⟩⟩
    obtain ⟨hc, hm⟩ := htick
    obtain ⟨hcs, hms⟩ := ih (e.tick frame factory source).2.1 (e.tick frame factory source).2.2.1
    refine ⟨?_, fun w hw => ?_⟩
    · refine hcs.trans ?_
      rw [hc, List.append_assoc, ← List.map_append]
      rfl
    · rcases List.mem_append.1 hw with hw | hw
      · exact ⟨e, List.mem_cons_self, hm w hw⟩
      · obtain ⟨e', he', h⟩ := hms w hw
        exact ⟨e', List.mem_cons_of_mem _ he', h⟩

/-! ## Hosts that keep no record -/

/-- The calls to the factory in a tick of a pattern, in order. -/
def Runner.creations (r : Runner) (frame : Frame) (owner : Bullet α) (factory : φ) (source : ρ) :
    List (Creation α) :=
  (r.tick frame owner (Recorder.start factory) source).factory.creations

/-- The calls to the factory in a tick of a swarm, in order. -/
def Swarm.creations (s : Swarm α) (frame : Frame) (factory : φ) (source : ρ) :
    List (Creation α) :=
  (s.tick frame (Recorder.start factory) source).factory.creations

/-- The bullets that a tick of a pattern hands over are those of the calls to the factory in it. -/
theorem Runner.spawned_eq_creations (r : Runner) (frame : Frame) (owner : Bullet α) (factory : φ)
    (source : ρ) :
    (r.tick frame owner factory source).spawned.map Spawn.creation
      = r.creations frame owner factory source := by
  have h := r.tick_unrecorded frame owner (Recorder.start factory) source
  have hmade := (r.tick_makes frame owner (Recorder.start factory) source).1
  rw [show factory = (Recorder.start factory : Recorder φ α).host from rfl, h]
  exact hmade.symm

/-- The bullets that come of a pass are those of the calls to the factory in the tick. -/
theorem Swarm.spawned_eq_creations (s : Swarm α) (frame : Frame) (factory : φ) (source : ρ) :
    (pass frame s.entries factory source).spawned.map Spawn.creation
        = s.creations frame factory source ∧
      ∀ w ∈ (pass frame s.entries factory source).spawned,
        ∃ e ∈ s.entries, ∃ r, e.runner = some r ∧ w.IsMade r.builder := by
  have h := pass_unrecorded frame s.entries (Recorder.start factory) source
  obtain ⟨hc, hm⟩ := pass_makes frame s.entries (Recorder.start factory) source
  rw [show factory = (Recorder.start factory : Recorder φ α).host from rfl, h]
  exact ⟨hc.symm, hm⟩

end Barrage
