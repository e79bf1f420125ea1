import Barrage.Step.Valid
import Barrage.Turn.Contract

/-!
# Turns of valid steps

* `Sequence.Valid.withScope`, `Sequence.Valid.settle`, `LoopStep.Valid.settle`: the parts of a turn keep
  steps valid.
* `Sequence.advance_valid`: every turn of a valid sequence leaves a valid one. If it ends in an error,
  the sequence is not done.
-/

namespace Barrage

variable {φ ρ α : Type}

theorem Sequence.Valid.withScope {s : Sequence Step} (hs : s.Valid) (scope : Scope) (isNew : Bool) :
    (s.withScope scope isNew).Valid := by
  rw [Sequence.withScope]
  cases isNew with
  | true =>
    rw [if_pos rfl, Step.expireAll_eq_map]
    exact hs.map_expire (fun c _ hc => hc.expire) scope
  | false =>
    obtain ⟨hle, hvalid, hbefore, hcurrent, hafter⟩ := Sequence.valid_iff.1 hs
    exact Sequence.valid_iff.2 ⟨hle, hvalid, hbefore, hcurrent, hafter⟩

theorem Sequence.isDone_withScope (s : Sequence Step) (scope : Scope) (isNew : Bool) :
    (s.withScope scope isNew).isDone = s.isDone := by
  cases isNew <;> simp [Sequence.withScope, Sequence.isDone]

/-- The step under the cursor replaced by what it is after its turn. -/
theorem Sequence.Valid.set {s : Sequence Step} {step step' : Step} (hs : s.Valid)
    (hc : s.current? = some step) (hv : step'.Valid) (hr : step'.Ready) :
    Sequence.Valid { s with children := s.children.set s.cursor step' } := by
  have hlt : s.cursor < s.children.length := (List.getElem?_eq_some_iff.1 hc).1
  obtain ⟨hle, hvalid, hbefore, -, hafter⟩ := Sequence.valid_iff.1 hs
  refine Sequence.valid_iff.2 ⟨by simpa using hle, fun c hmem => ?_, fun i c hi he => ?_,
    fun c he => ?_, fun i c hi he => ?_⟩
  · rcases List.mem_or_eq_of_mem_set hmem with hmem | rfl
    · exact hvalid c hmem
    · exact hv
  · rw [List.getElem?_set_ne (Nat.ne_of_gt hi)] at he
    exact hbefore i c hi he
  · simp only [Sequence.current?, List.getElem?_set_self hlt, Option.some.injEq] at he
    exact he ▸ hr
  · rw [List.getElem?_set_ne (Nat.ne_of_lt hi)] at he
    exact hafter i c hi he

/-- The cursor passes the step under it, which is done after its turn. -/
theorem Sequence.Valid.pass {s : Sequence Step} {step step' : Step} (hs : s.Valid)
    (hc : s.current? = some step) (hv : step'.Valid) (hd : step'.isDone = true) :
    Sequence.Valid
      { s with children := s.children.set s.cursor step', cursor := s.cursor + 1 } := by
  have hlt : s.cursor < s.children.length := (List.getElem?_eq_some_iff.1 hc).1
  obtain ⟨-, hvalid, hbefore, -, hafter⟩ := Sequence.valid_iff.1 hs
  have hget {i : Nat} {c : Step} (hi : s.cursor < i)
      (he : (s.children.set s.cursor step')[i]? = some c) : c.Pristine := by
    rw [List.getElem?_set_ne (Nat.ne_of_lt hi)] at he
    exact hafter i c hi he
  have hle : s.cursor + 1 ≤ (s.children.set s.cursor step').length := by
    rwa [List.length_set]
  refine Sequence.valid_iff.2 ⟨hle, fun c hmem => ?_, fun i c hi he => ?_,
    fun c he => (hget (Nat.lt_succ_self _) he).ready, fun i c hi he => ?_⟩
  · rcases List.mem_or_eq_of_mem_set hmem with hmem | rfl
    · exact hvalid c hmem
    · exact hv
  · -- The steps before the cursor are those that were there before, and the one that it passes.
    rcases Nat.lt_succ_iff_lt_or_eq.1 hi with hi | rfl
    · rw [List.getElem?_set_ne (Nat.ne_of_gt hi)] at he
      exact hbefore i c hi he
    · rw [List.getElem?_set_self hlt] at he
      exact Option.some.inj he ▸ hd
  · exact hget (Nat.lt_of_succ_lt hi) he

/-- A sequence stays valid when the step under its cursor has had its turn. -/
theorem Sequence.Valid.settle {s : Sequence Step} {step : Step} {o : Outcome Step (Turn φ ρ α)}
    (hs : s.Valid) (hc : s.current? = some step) (hv : o.step.Valid)
    (he : o.error ≠ none → o.step.isDone = false) :
    (s.settle o).step.Valid ∧ (o.error ≠ none → (s.settle o).step.isDone = false) := by
  have hlt : s.cursor < s.children.length := (List.getElem?_eq_some_iff.1 hc).1
  rw [Sequence.settle]
  cases herror : o.error with
  | some e =>
    have hd := he (by simp [herror])
    exact ⟨hs.set hc hv (.of_not_done hd), fun _ => by simpa [Sequence.isDone] using hlt⟩
  | none =>
    by_cases hd : o.step.isDone = true
    · simp only [hd, if_true]
      exact ⟨hs.pass hc hv hd, absurd rfl⟩
    · have hd : o.step.isDone = false := by simpa using hd
      simp only [hd]
      exact ⟨hs.set hc hv (.of_not_done hd), absurd rfl⟩

/-- A valid loop that was not entered is valid once it is. -/
theorem LoopStep.Valid.enter {l : LoopStep Step} (hl : l.Valid) (ht : l.target = none) (n : Nat) :
    LoopStep.Valid { l with target := some n } := by
  obtain ⟨hb, -, houtside⟩ := LoopStep.valid_iff.1 hl
  obtain ⟨h0, hp⟩ := houtside ht
  refine LoopStep.valid_iff.2 ⟨hb, fun m _ => ⟨?_, Step.Pristine.ready hp⟩, nofun⟩
  show l.completed ≤ m
  omega

/-- The body of a loop that goes on replaced by what it is after its turn. -/
theorem LoopStep.Valid.set {l : LoopStep Step} {n : Nat} {body : Sequence Step} (hl : l.Valid)
    (ht : l.target = some n) (hv : body.Valid) (hr : (Step.sequence body).Ready) :
    LoopStep.Valid { l with body } := by
  obtain ⟨-, hentered, -⟩ := LoopStep.valid_iff.1 hl
  refine LoopStep.valid_iff.2 ⟨hv, fun m hm => ⟨(hentered m hm).1, hr⟩, fun hn => ?_⟩
  have hn : l.target = none := hn
  rw [ht] at hn
  cases hn

/-- A loop that goes on stays valid when its body has had its turn. -/
theorem LoopStep.Valid.settle {l : LoopStep Step} {n : Nat} {body : Sequence Step} (hl : l.Valid)
    (ht : l.target = some n) (hn : l.completed < n) (hv : body.Valid) :
    ({ l with body } : LoopStep Step).settle.Valid := by
  rw [LoopStep.settle]
  by_cases hd : body.isDone = true
  · rw [if_pos hd]
    have hp := body.pristine_reset
    refine LoopStep.valid_iff.2 ⟨hp.valid, fun m hm => ⟨?_, Step.Pristine.ready hp⟩, fun hm => ?_⟩
    · obtain rfl : n = m := Option.some.inj (ht.symm.trans hm)
      exact hn
    · have hm : l.target = none := hm
      rw [ht] at hm
      cases hm
  · rw [if_neg hd]
    exact hl.set ht hv fun h => absurd h hd

/-- Turns of valid steps leave valid steps, which are not done after an error. -/
def Contract.valid : Contract φ ρ α where
  sequence _ s _ o := s.Valid → o.step.Valid ∧ (o.error ≠ none → o.step.isDone = false)
  step _ s _ o := s.Valid → s.Ready → o.step.Valid ∧ (o.error ≠ none → o.step.isDone = false)
  rounds _ l _ o := l.Valid → o.step.Valid ∧ (o.error ≠ none → o.step.isDone = false)

variable [RandomSource ρ] [BulletFactory φ α]

theorem Contract.valid_kept (stage : Stage) :
    (valid (φ := φ) (ρ := ρ) (α := α)).Kept stage where
  done _ hs := ⟨hs, fun h => absurd rfl h⟩
  scopeFails hd _ hs := ⟨hs, fun _ => hd⟩
  current {_ s _ scope isNew _ _ _} _ _ hc ho hs := by
    have hs' := hs.withScope scope isNew
    obtain ⟨-, hvalid, -, hcurrent, -⟩ := Sequence.valid_iff.1 hs'
    obtain ⟨hv, he⟩ := ho (hvalid _ (List.mem_of_getElem? hc)) (hcurrent _ hc)
    rw [Sequence.error_settle]
    exact hs'.settle hc hv he
  nested ho hs _ := ho hs
  -- A leaf has its turn only if it is not done, and stays so if it fails.
  fire params f t _ hr := by
    have hf : f.fired = false := hr.not_done rfl
    refine ⟨trivial, fun he => ?_⟩
    rcases f.dispatch_cases stage params t with ⟨_, _, f', -, hf' | ⟨_, hf'⟩, h⟩ |
      ⟨_, _, _, _, _, -, -, -, h⟩ <;> rw [h] at he ⊢
    · rw [hf']
      exact hf
    · rw [hf']
      exact hf
    · cases he rfl
  mutation params m t _ hr := by
    have hm : m.isDone = false := hr.not_done rfl
    refine ⟨trivial, fun he => ?_⟩
    rcases m.dispatch_cases stage params t with ⟨_, _, -, -, h⟩ | ⟨_, _, _, -, -, -, h⟩ <;>
      rw [h] at he ⊢
    · exact hm
    · cases he rfl
  wait params w t _ hr := by
    have hw : w.isDone = false := hr.not_done rfl
    refine ⟨trivial, fun he => ?_⟩
    rcases w.dispatch_cases stage params t with ⟨_, _, -, -, h⟩ | ⟨_, _, _, -, -, -, h⟩ <;>
      rw [h] at he ⊢
    · exact hw
    · cases he rfl
  vanish _ _ _ _ _ := ⟨trivial, fun h => absurd rfl h⟩
  countFails hl _ hs _ := ⟨hs, fun _ => by simp [Step.isDone, LoopStep.isDone, hl]⟩
  entered hl _ ho hs _ := ho (LoopStep.Valid.enter hs hl _)
  resumed _ ho hs _ := ho hs
  ended _ _ hs := ⟨hs, fun h => absurd rfl h⟩
  exhausted _ _ _ hs := ⟨hs, fun h => absurd rfl h⟩
  fails {_ l _ n o _} hl hn _ ho he hs := by
    obtain ⟨hv, hd⟩ := ho (LoopStep.valid_iff.1 hs).body
    refine ⟨hs.set hl hv (.of_not_done (hd (by simp [he]))), fun _ => ?_⟩
    simpa [LoopStep.isDone, hl] using hn
  yields {_ l _ n o} hl hn _ ho _ _ hs :=
    ⟨hs.settle hl hn (ho (LoopStep.valid_iff.1 hs).body).1, fun h => absurd rfl h⟩
  again {_ l _ n o o'} hl hn _ ho _ _ hr hs :=
    hr (hs.settle hl hn (ho (LoopStep.valid_iff.1 hs).body).1)

/-- A turn of a valid sequence leaves a valid one. -/
theorem Sequence.advance_valid (stage : Stage) (params : Params) {s : Sequence Step} (hs : s.Valid)
    (t : Turn φ ρ α) : (s.advance stage params t).step.Valid :=
  ((Contract.valid_kept stage).advance params s t hs).1

end Barrage
