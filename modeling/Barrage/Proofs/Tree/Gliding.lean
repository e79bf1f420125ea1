import Barrage.Host.Foundry
import Barrage.Turn.Glide

/-!
# Where a mutation ends

However the time of a mutation is cut into turns, and whatever becomes of its surroundings after the
first, it ends at one value.

* `MutationStep.isDone_of_instant`: a mutation that takes no time is done after its first turn.
* `mutation_ends_alike`: the glide of a mutation, what its turns do, and where it ends.
-/

namespace Barrage

open MutationStep

variable {φ ρ α : Type} [RandomSource ρ]

/-- A mutation that takes no time is done after its first turn, however short that is. -/
theorem MutationStep.isDone_of_instant {m : MutationStep} (helapsed : m.elapsed = 0) {s : Steering} {g : Glide}
    {fs : List Formula} {source : ρ} {c : Call φ ρ α}
    (h : Glides s g fs source c (m.call c)) (hd : g.duration ≤ 0) (hdelta : 0 ≤ c.stage.frame.delta) :
    (m.call c).step.isDone = true := by
  have he : (m.call c).step.elapsed = 0 + c.stage.frame.delta := by
    rw [elapsed_call h.error, helapsed]
  rw [h.isDone_iff, he]
  exact Scalar.le_zero_add hd hdelta

/-- A mutation that was not entered yet, and whose term and value can be evaluated at the point where it is
entered, settles on a glide there: from what its owner has then, to what its kind makes of the value, in
the time that its term gives. All this does not depend on how long the first turn is. The term is
evaluated before the value, and neither is evaluated again. No turn fails, and each writes the property
that is steered and leaves the rest of its owner. It is done after some turns if their time adds up to what
the term gives. Two mutations with such a beginning in common that are done after their last turns have
written the same value there, although all later surroundings may differ. One that takes no time is done
after the first turn. -/
theorem mutation_ends_alike (m : MutationStep) (hglide : m.glide = none) (helapsed : m.elapsed = 0)
    (builder : Builder) (target : Point) (rank : Scalar) (params : Params) (t : Turn φ ρ α)
    {duration value : Scalar} {source : ρ}
    (hasked : (m.asks rank params).run t.source = (.ok (duration, value), source)) :
    let s := m.steering
    let g : Glide := ⟨s.read t.owner, s.goal t.owner target duration value, duration⟩
    let entry : Scalar → Call φ ρ α := fun delta => ⟨⟨builder, ⟨delta, target, rank⟩⟩, params, t⟩
    (∀ delta calls, ∃ o os, play (entry delta :: calls) m = o :: os ∧
      Glides s g [m.term, s.value] source (entry delta) o ∧
      List.Forall₂ (fun c o => Glides s g [] c.turn.source c o) calls os) ∧
    (∀ delta calls o, (play (entry delta :: calls) m).getLast? = some o →
      (o.step.isDone = true ↔ duration ≤ total (entry delta :: calls))) ∧
    (∀ delta calls o delta' calls' o',
      (play (entry delta :: calls) m).getLast? = some o → o.step.isDone = true →
      (play (entry delta' :: calls') m).getLast? = some o' → o'.step.isDone = true →
      s.read o.turn.owner = s.kept (g.start + (g.goal - g.start) * 1) ∧
        s.read o'.turn.owner = s.read o.turn.owner) ∧
    (duration ≤ 0 → ∀ delta, 0 ≤ delta → (m.call (entry delta)).step.isDone = true) := by
  intro s g entry
  have hfirst (delta : Scalar) :
      Glides s g [m.term, s.value] source (entry delta) (m.call (entry delta)) :=
    glides_of_asks (c := entry delta) hglide hasked
  have hrest (delta : Scalar) (calls : List (Call φ ρ α)) :
      List.Forall₂ (fun c o => Glides s g [] c.turn.source c o) calls
        (play calls (m.call (entry delta)).step) := by
    have h := glides_play (hfirst delta).glide calls
    rwa [(hfirst delta).steering] at h
  -- every turn of a run, so also the last, is on the one glide
  have hall (delta : Scalar) (calls : List (Call φ ρ α)) {o : Outcome MutationStep (Turn φ ρ α)}
      (ho : o ∈ play (entry delta :: calls) m) : ∃ fs source c, Glides s g fs source c o := by
    rcases List.mem_cons.1 ho with rfl | hmem
    · exact ⟨_, _, _, hfirst delta⟩
    · obtain ⟨c, -, h⟩ := exists_of_mem_forall₂ (hrest delta calls) hmem
      exact ⟨_, _, c, h⟩
  have hend (delta : Scalar) (calls : List (Call φ ρ α)) {o : Outcome MutationStep (Turn φ ρ α)}
      (ho : (play (entry delta :: calls) m).getLast? = some o) (hd : o.step.isDone = true) :
      s.read o.turn.owner = s.kept (g.start + (g.goal - g.start) * 1) := by
    obtain ⟨_, _, _, h⟩ := hall delta calls (List.mem_of_getLast? ho)
    exact h.read_of_isDone (isFinite_of_asks hasked) hd
  refine ⟨fun delta calls => ⟨_, _, rfl, hfirst delta, hrest delta calls⟩, ?_, ?_, ?_⟩
  · intro delta calls o ho
    obtain ⟨_, _, _, h⟩ := hall delta calls (List.mem_of_getLast? ho)
    have hok : ∀ o ∈ play (entry delta :: calls) m, o.error = none := by
      intro o ho
      obtain ⟨_, _, _, h⟩ := hall delta calls ho
      exact h.error
    rw [h.isDone_iff, elapsed_play hok ho, helapsed]
    rfl
  · intro delta calls o delta' calls' o' ho hd ho' hd'
    exact ⟨hend delta calls ho hd, (hend delta' calls' ho' hd').trans (hend delta calls ho hd).symm⟩
  · intro hd delta hdelta
    exact isDone_of_instant helapsed (hfirst delta) hd hdelta

/-- A turn by ninety degrees for each unit of time, for three units. -/
def wheel : MutationStep := ⟨.direction ⟨.sequence, .number 90⟩, .number 3, none, 0, false⟩

set_option maxRecDepth 10000 in
/-- That turn ends at 270 degrees, in three steps of one unit or in one of two units and one of four. The
later steps find the owner turned by someone else, another target and another rank. -/
theorem mutation_ends_alike_wheel :
    let t : Turn Foundry Tape (Option String) :=
      .start LabelledBullet.first .plain ⟨[], 0⟩ 1 .nothing
    let entry : Scalar → Call Foundry Tape (Option String) := fun delta =>
      ⟨⟨.bare .standard, ⟨delta, ⟨0, -100⟩, 0⟩⟩, [], t⟩
    let later : Scalar → Call Foundry Tape (Option String) := fun delta =>
      ⟨⟨.bare .standard, ⟨delta, ⟨100, 0⟩, 1⟩⟩, [5],
        { t with owner := { t.owner with direction := 45 } }⟩
    ∃ o o', (play [entry 1, later 1, later 1] wheel).getLast? = some o ∧
      (play [entry 2, later 4] wheel).getLast? = some o' ∧ o.step.isDone = true ∧
      o'.step.isDone = true ∧ o.turn.owner.direction = 270 ∧
      o'.turn.owner.direction = o.turn.owner.direction := by
  intro t entry later
  obtain ⟨-, -, hend, -⟩ := mutation_ends_alike wheel rfl rfl (.bare .standard) ⟨0, -100⟩ 0 [] t rfl
  obtain ⟨o, ho⟩ : ∃ o, (play [entry 1, later 1, later 1] wheel).getLast? = some o := ⟨_, rfl⟩
  obtain ⟨o', ho'⟩ : ∃ o', (play [entry 2, later 4] wheel).getLast? = some o' := ⟨_, rfl⟩
  have hd : o.step.isDone = true := by
    cases ho
    decide
  have hd' : o'.step.isDone = true := by
    cases ho'
    decide
  obtain ⟨hread, halike⟩ := hend 1 [later 1, later 1] o 2 [later 4] o' ho hd ho' hd'
  exact ⟨o, o', ho, ho', hd, hd', hread.trans (by decide +kernel), halike⟩

end Barrage
