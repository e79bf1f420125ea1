import Barrage.Host.Foundry
import Barrage.Runner.Reach
import Barrage.Turn.Shots

/-!
# What a runner fired last

* `Runner.Since`: a runner some calls after it was built or restarted, and the bullets that it made since.
* `Runner.Notes`: the notes of a tick.
* `Runner.Since.last`: what counts as fired last is the last of these bullets, as the factory made it.
* `last_fired_inherited`: so it does for every fire that inherits, wherever the fire is in the tree and
  whatever was between it and the last bullet.
-/

namespace Barrage

namespace Runner

/-- A runner that was built or restarted and has had only ticks without an error since, with the bullets
that it made in them. The hosts of the ticks may be of different types. -/
inductive Since : Runner → List Shot → Prop where
  | built {r} (h : New r) : Since r []
  | restarted (r : Runner) : Since r.restart []
  | tick {φ ρ α : Type} [RandomSource ρ] [BulletFactory φ α] {r made} (h : Since r made) (frame : Frame)
    (owner : Bullet α) (factory : φ) (source : ρ)
    (hok : (r.tick frame owner factory source).failure = none) :
    Since (r.tick frame owner factory source).runner
      (made ++ (r.tick frame owner factory source).spawned.map Spawn.shot)
  | bind {r made} (h : Since r made) (owner : BulletId) : Since (r.bind owner) made
  | cancel {r made} (h : Since r made) : Since r.cancel made

section Ticks

variable {φ ρ α : Type} [RandomSource ρ] [BulletFactory φ α]

/-- The notes of a tick: a pattern that has ended or whose steps are done has none. -/
inductive Notes (r : Runner) (frame : Frame) (owner : Bullet α) (factory : φ) (source : ρ) :
    List Note → Prop where
  | idle (h : r.isRunning = false ∨ r.root.isDone = true) : Notes r frame owner factory source []
  | turn {ns} (h : r.isRunning = true) (hd : r.root.isDone = false)
    (hns : (Step.sequence r.root).Notes ⟨r.builder, frame⟩ [] r.params (r.turn owner factory source) ns
      ((r.root.advance ⟨r.builder, frame⟩ r.params (r.turn owner factory source)).map .sequence)) :
    Notes r frame owner factory source ns

variable (r : Runner) (frame : Frame) (owner : Bullet α) (factory : φ) (source : ρ)

/-- Every tick has notes. -/
theorem exists_notes : ∃ ns, r.Notes frame owner factory source ns := by
  rcases h : r.isRunning with _ | _
  · exact ⟨[], .idle (.inl h)⟩
  rcases hd : r.root.isDone with _ | _
  · obtain ⟨ns, hns⟩ := Sequence.advance_notes ⟨r.builder, frame⟩ [] r.params r.root
      (r.turn owner factory source)
    exact ⟨ns, .turn h hd hns⟩
  · exact ⟨[], .idle (.inr hd)⟩

variable {r frame owner factory source} {ns : List Note}

/-- The bullets of the notes of a tick are those that it gives its host. -/
theorem Notes.shots_eq (h : r.Notes frame owner factory source ns) :
    shots ns = (r.tick frame owner factory source).spawned.map Spawn.shot := by
  cases h with
  | idle h =>
    rcases r.tick_cases frame owner factory source with ⟨-, hx⟩ | ⟨-, -, hx⟩ | ⟨hrun, hd, -⟩
    · rw [hx]
      rfl
    · rw [hx]
      rfl
    · simp [hrun, hd] at h
  | turn h hd hns =>
    rw [tick_of_turn h hd]
    exact hns.shoots.spawned.symm

/-- The last bullet of a tick without an error counts as fired last after it. -/
theorem last_tick {made : List Shot} (hlast : r.last = .of made)
    (hok : (r.tick frame owner factory source).failure = none) :
    (r.tick frame owner factory source).runner.last
      = .of (made ++ (r.tick frame owner factory source).spawned.map Spawn.shot) := by
  obtain ⟨ns, h⟩ := r.exists_notes frame owner factory source
  rw [← h.shots_eq]
  cases h with
  | idle h =>
    have hmade : made ++ shots [] = made := List.append_nil made
    rw [hmade]
    rcases r.tick_cases frame owner factory source with ⟨-, hx⟩ | ⟨-, -, hx⟩ | ⟨hrun, hd, -⟩
    · rw [hx]
      exact hlast
    · rw [hx]
      exact hlast
    · simp [hrun, hd] at h
  | turn h hd hns =>
    rw [tick_of_turn h hd] at hok ⊢
    have hnone : (r.root.advance ⟨r.builder, frame⟩ r.params (r.turn owner factory source)).error
        = none := hok
    have hafter := hns.shoots.last made hlast
    simp only [give, afterTurn, hnone]
    exact hafter

end Ticks

/-- What counts as fired last is the last bullet since the start, as the factory made it. -/
theorem Since.last {r : Runner} {made : List Shot} (h : r.Since made) : r.last = .of made := by
  induction h with
  | built h =>
    rw [h.blank.2]
    rfl
  | restarted r => rfl
  | tick _ _ _ _ _ hok ih => exact last_tick ih hok
  | bind _ _ ih => exact ih
  | cancel _ ih =>
    unfold Runner.cancel
    split
    · exact ih
    · exact ih

end Runner

/-- A fire is its own fire and definition, whatever happened to it since it was built. -/
theorem Step.exists_fire_of_blank {s : Step} {f : FireStep} (h : s.blank = .fire f) :
    ∃ g, s = .fire g ∧ g.fire = f.fire ∧ g.definition = f.definition := by
  cases s with
  | fire g =>
    obtain rfl := Step.fire.inj h
    exact ⟨g, rfl, rfl, rfl⟩
  | sequence _ | loop _ | mutation _ | wait _ | vanish _ => cases h

/-- As long as no tick since the start of a runner failed, what counts as fired last are the heading and
the speed of the bullet that was made last since then, as they came from the factory.

In the next tick, which may fail, the calls to the factory are those that the notes of the tick tell of, in
order; a fire at the place in the tree that the note names asked for them. Where neither the fire nor the
definition gives a heading, the factory is asked for that of the last bullet before, which may be one of
the same tick or of an earlier one, and for the aim if there is none. Likewise for the speed, and for the
configured one. -/
theorem last_fired_inherited {r : Runner} {made : List Shot} (h : r.Since made) :
    r.last = .of made ∧
    ∀ (φ ρ α : Type) [RandomSource ρ] [BulletFactory φ α] (frame : Frame) (owner : Bullet α)
      (factory : φ) (source : ρ),
      let x := r.tick frame owner (Recorder.start factory : Recorder φ α) source
      r.tick frame owner factory source = x.unrecorded ∧
      (∃ ns, r.Notes frame owner (Recorder.start factory : Recorder φ α) source ns) ∧
      ∀ ns, r.Notes frame owner (Recorder.start factory : Recorder φ α) source ns →
        x.factory.creations.map Creation.shot = shots ns ∧ x.spawned.map Spawn.shot = shots ns ∧
        ∀ earlier n later shot, ns = earlier ++ n :: later → n.happening = .fired shot →
          ∃ f, (Step.sequence r.root).sub? n.place = some (.fire f) ∧
            shot.Inherits f (owner.position.headingTo frame.target) r.builder.config.defaultSpeed
              (.of (made ++ shots earlier)) := by
  refine ⟨h.last, ?_⟩
  intro φ ρ α _ _ frame owner factory source x
  refine ⟨r.tick_unrecorded frame owner (Recorder.start factory) source, r.exists_notes .., ?_⟩
  intro ns hns
  have hshots : shots ns = x.spawned.map Spawn.shot := hns.shots_eq
  have hcreations := (r.tick_makes frame owner (Recorder.start factory : Recorder φ α) source).1
  refine ⟨?_, hshots.symm, ?_⟩
  · rw [hshots, hcreations, List.map_append, List.map_map]
    rfl
  · intro earlier n later shot heq hshot
    cases hns with
    | idle => simp at heq
    | turn _ _ hnotes =>
      have heach : Each (Note.Inherits (Step.sequence r.root).blank
          (owner.position.headingTo frame.target) r.builder.config.defaultSpeed made) [] ns :=
        hnotes.inherits rfl rfl (h.last.trans (congrArg LastFired.of (List.append_nil made).symm))
      obtain ⟨f, hsub, hinherits⟩ := each_iff.1 heach earlier n later heq shot hshot
      -- The notes speak of the tree as it was built, and the fire found there is the one of the tree.
      rw [Step.sub?_blank] at hsub
      obtain ⟨s, hs, hblank⟩ := Option.map_eq_some_iff.1 hsub
      obtain ⟨g, rfl, hfire, hdef⟩ := Step.exists_fire_of_blank hblank
      refine ⟨g, hs, ?_, ?_⟩
      · rw [hfire, hdef]
        exact hinherits.heading
      · rw [hfire, hdef]
        exact hinherits.pace

/-- A pattern that fires twice with a pause between. The second fire gives neither heading nor speed. -/
def pausedVolley : Action Node :=
  ⟨none, [.fire ⟨none, some ⟨.absolute, .number 30⟩, some ⟨.absolute, .number 5⟩,
      .inline ⟨none, none, none, []⟩⟩,
    .wait (.number 1), .fire ⟨none, none, none, .inline ⟨none, none, none, []⟩⟩]⟩

/-- A foundry that turns what it makes by ten degrees and makes nothing faster than 2. -/
def Foundry.turning : Foundry := ⟨1, 0, some 2, some 10, none⟩

/-- A tick of a pattern whose bullets that foundry makes. -/
def Runner.turningTick (r : Runner) : Tick Foundry Tape (Option String) :=
  r.tick ⟨1, ⟨0, -100⟩, 0⟩ LabelledBullet.first Foundry.turning ⟨[], 0⟩

/-- The second bullet of that pattern is asked for with the heading and the speed that the first one came
with, not with those that the first one was asked for with, although a pause is between them. -/
theorem last_fired_inherited_turning :
    ∃ r₀ : Runner, Runner.ofAction (.bare .standard) pausedVolley [] = .ok r₀ ∧
      let fired := r₀.turningTick
      let paused := fired.runner.turningTick
      fired.spawned.map Spawn.shot = [⟨30, 5, 40, 2⟩] ∧ paused.spawned = [] ∧
      paused.runner.last = ⟨some 40, some 2⟩ ∧
      paused.runner.turningTick.spawned.map Spawn.shot = [⟨40, 2, 50, 2⟩] := by
  obtain ⟨r₀, hr⟩ : ∃ r₀, Runner.ofAction (.bare .standard) pausedVolley [] = .ok r₀ := ⟨_, rfl⟩
  refine ⟨r₀, hr, ?_⟩
  intro fired paused
  have hrun : fired.spawned.map Spawn.shot = [⟨30, 5, 40, 2⟩] ∧ fired.failure = none ∧
      paused.spawned.length = 0 ∧ paused.failure = none ∧
      paused.runner.turningTick.spawned.map Spawn.shot = [⟨40, 2, 50, 2⟩] := by
    cases hr
    decide +kernel
  obtain ⟨hfirst, hok, hnone, hpaused, hsecond⟩ := hrun
  have hsince : paused.runner.Since ([] ++ fired.spawned.map Spawn.shot ++ paused.spawned.map Spawn.shot) :=
    .tick (.tick (.built (.action hr)) _ _ _ _ hok) _ _ _ _ hpaused
  have hempty : paused.spawned = [] := List.length_eq_zero_iff.1 hnone
  rw [hfirst, hempty] at hsince
  exact ⟨hfirst, hempty, (last_fired_inherited hsince).1, hsecond⟩

end Barrage
