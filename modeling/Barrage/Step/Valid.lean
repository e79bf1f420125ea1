import Barrage.Step.Forget

/-!
# Valid steps

* `Step.Pristine`: a step was not entered since it was built or reset.
* `Step.Ready`: a step has something to do, or it is an empty sequence.
* `Step.Valid`: all steps before a cursor are done, the one under it is ready, those after it and the
  bodies of loops that were not entered are pristine, and no loop has run too often.
* `Sequence.valid_iff`, `LoopStep.valid_iff`: what this means for the parts of a step.
* `Step.Pristine.valid`: a pristine step is valid.
* `Step.Valid.expire`, `Sequence.Valid.finish`: what a host does to a step keeps it valid.
-/

namespace Barrage

/-! ## Pristine steps -/

mutual

/-- A step that was not entered since it was built or reset. -/
def Step.Pristine : Step → Prop
  | .sequence s => s.Pristine
  | .loop l => l.Pristine
  | .fire f => f.fired = false
  | .mutation m => m.glide = none ∧ m.elapsed = 0
  | .wait w => w.duration = none ∧ w.elapsed = 0
  | .vanish triggered => triggered = false
termination_by structural s => s

/-- A sequence that was not entered since it was built or reset. -/
def Sequence.Pristine : Sequence Step → Prop
  | ⟨_, _, children, cursor⟩ => cursor = 0 ∧ Step.AllPristine children
termination_by structural s => s

/-- A loop that was not entered since it was built or reset. -/
def LoopStep.Pristine : LoopStep Step → Prop
  | ⟨_, target, completed, body⟩ => target = none ∧ completed = 0 ∧ body.Pristine
termination_by structural l => l

/-- Several steps that were not entered since they were built or reset. -/
def Step.AllPristine : List Step → Prop
  | [] => True
  | s :: rest => s.Pristine ∧ Step.AllPristine rest
termination_by structural l => l

end

theorem Step.allPristine_iff {l : List Step} : Step.AllPristine l ↔ ∀ c ∈ l, c.Pristine := by
  induction l with
  | nil => simp [Step.AllPristine]
  | cons s rest ih => simp [Step.AllPristine, ih]

theorem Sequence.pristine_iff {s : Sequence Step} :
    s.Pristine ↔ s.cursor = 0 ∧ ∀ c ∈ s.children, c.Pristine := by
  rw [← Step.allPristine_iff]
  cases s
  rfl

theorem LoopStep.pristine_iff {l : LoopStep Step} :
    l.Pristine ↔ l.target = none ∧ l.completed = 0 ∧ l.body.Pristine := by
  cases l
  rfl

/-- A step is pristine after it was reset. -/
theorem Step.pristine_reset (s : Step) : s.reset.Pristine := by
  induction s using Step.induction with
  | sequence s ih =>
    show s.reset.Pristine
    rw [Sequence.pristine_iff, Sequence.reset_eq]
    exact ⟨rfl, List.forall_mem_map.2 ih⟩
  | loop l ih =>
    show l.reset.Pristine
    rw [LoopStep.pristine_iff, LoopStep.reset_eq]
    exact ⟨rfl, rfl, ih⟩
  | fire _ | vanish _ => rfl
  | mutation _ | wait _ => exact ⟨rfl, rfl⟩

theorem Sequence.pristine_reset (s : Sequence Step) : s.reset.Pristine :=
  Step.pristine_reset (.sequence s)

/-- Whether a step is pristine does not depend on values that no longer hold. -/
theorem Step.Pristine.forget {s : Step} (h : s.Pristine) : s.forget.Pristine := by
  induction s using Step.induction with
  | sequence s ih =>
    obtain ⟨hn, hc⟩ := Sequence.pristine_iff.1 (show s.Pristine from h)
    show s.forget.Pristine
    rw [Sequence.pristine_iff, Sequence.forget_eq]
    exact ⟨hn, List.forall_mem_map.2 fun c hmem => ih c hmem (hc c hmem)⟩
  | loop l ih =>
    obtain ⟨ht, hn, hb⟩ := LoopStep.pristine_iff.1 (show l.Pristine from h)
    show l.forget.Pristine
    rw [LoopStep.pristine_iff, LoopStep.forget_eq]
    exact ⟨ht, hn, ih hb⟩
  | fire _ | vanish _ | mutation _ | wait _ => exact h

/-- A step is pristine if it is as it was before it was first entered. -/
theorem Sequence.Pristine.of_blank {s : Sequence Step} (h : s.blank = s) : s.Pristine := by
  rw [← h]
  exact Step.Pristine.forget (s := .sequence s.reset) s.pristine_reset

theorem Step.Pristine.expire {s : Step} (h : s.Pristine) : s.expire.Pristine := by
  induction s using Step.induction with
  | sequence s ih =>
    obtain ⟨hn, hc⟩ := Sequence.pristine_iff.1 (show s.Pristine from h)
    show s.expire.Pristine
    rw [Sequence.pristine_iff, Sequence.expire_eq]
    refine ⟨hn, ?_⟩
    by_cases hs : s.scope.isShared = true
    · rw [if_pos hs]
      exact List.forall_mem_map.2 fun c hmem => ih c hmem (hc c hmem)
    · rw [if_neg hs]
      exact hc
  | loop l ih =>
    obtain ⟨ht, hn, hb⟩ := LoopStep.pristine_iff.1 (show l.Pristine from h)
    show l.expire.Pristine
    rw [LoopStep.pristine_iff, LoopStep.expire_eq]
    exact ⟨ht, hn, ih hb⟩
  | fire _ | vanish _ | mutation _ | wait _ => exact h

theorem Step.Pristine.finish {s : Step} (h : s.Pristine) : s.finish.Pristine := by
  induction s using Step.induction with
  | sequence s ih =>
    obtain ⟨hn, hc⟩ := Sequence.pristine_iff.1 (show s.Pristine from h)
    show s.finish.Pristine
    rw [Sequence.pristine_iff, Sequence.finish_eq]
    exact ⟨hn, Step.forall_mem_modify hc ih⟩
  | loop l ih =>
    obtain ⟨ht, hn, hb⟩ := LoopStep.pristine_iff.1 (show l.Pristine from h)
    show l.finish.Pristine
    rw [LoopStep.pristine_iff, LoopStep.finish_eq]
    exact ⟨ht, hn, ih hb⟩
  | fire _ | vanish _ | mutation _ | wait _ => exact h

/-! ## Ready steps -/

/-- Whether a step is an empty sequence. -/
def Step.isHollow : Step → Bool
  | .sequence s => s.children.isEmpty
  | _ => false

/-- A step that has something to do, or is an empty sequence. -/
def Step.Ready (s : Step) : Prop := s.isDone = true → s.isHollow = true

theorem Step.Ready.of_not_done {s : Step} (h : s.isDone = false) : s.Ready := fun hd => by
  rw [h] at hd
  cases hd

/-- A leaf that is ready is not done. -/
theorem Step.Ready.not_done {s : Step} (h : s.Ready) (hs : s.isHollow = false) :
    s.isDone = false := by
  cases hd : s.isDone with
  | false => rfl
  | true => exact absurd (h hd) (by simp [hs])

/-- A pristine step has all it should do before it. -/
theorem Step.Pristine.ready {s : Step} (h : s.Pristine) : s.Ready := by
  intro hd
  cases s with
  | sequence s =>
    obtain ⟨hn, -⟩ := Sequence.pristine_iff.1 (show s.Pristine from h)
    simpa [Step.isDone, Sequence.isDone, hn, Step.isHollow] using hd
  | loop l =>
    obtain ⟨ht, -⟩ := LoopStep.pristine_iff.1 (show l.Pristine from h)
    simp [Step.isDone, LoopStep.isDone, ht] at hd
  | fire f => exact absurd (show f.fired = true from hd) (by simp [show f.fired = false from h])
  | mutation m => simp [Step.isDone, MutationStep.isDone, show m.glide = none from h.1] at hd
  | wait w => simp [Step.isDone, WaitStep.isDone, show w.duration = none from h.1] at hd
  | vanish triggered =>
    exact absurd (show triggered = true from hd) (by simp [show triggered = false from h])

@[simp] theorem Step.isDone_expire (s : Step) : s.expire.isDone = s.isDone := by
  cases s with
  | sequence s =>
    simp only [Step.expire, Step.isDone, Sequence.isDone, Sequence.expire_eq]
    split <;> simp
  | loop l => simp only [Step.expire, Step.isDone, LoopStep.isDone, LoopStep.expire_eq]
  | fire _ | mutation _ | wait _ | vanish _ => rfl

@[simp] theorem Step.isDone_finish (s : Step) : s.finish.isDone = s.isDone := by
  cases s with
  | sequence s => simp [Step.finish, Step.isDone, Sequence.isDone, Sequence.finish_eq]
  | loop l => simp only [Step.finish, Step.isDone, LoopStep.isDone, LoopStep.finish_eq]
  | fire _ | mutation _ | wait _ | vanish _ => rfl

@[simp] theorem Step.isHollow_expire (s : Step) : s.expire.isHollow = s.isHollow := by
  cases s with
  | sequence s =>
    simp only [Step.expire, Step.isHollow, Sequence.expire_eq]
    split <;> simp
  | loop _ | fire _ | mutation _ | wait _ | vanish _ => rfl

@[simp] theorem Step.isHollow_finish (s : Step) : s.finish.isHollow = s.isHollow := by
  cases s with
  | sequence s =>
    simp only [Step.finish, Step.isHollow, Sequence.finish_eq]
    cases s.children <;> cases s.cursor <;> rfl
  | loop _ | fire _ | mutation _ | wait _ | vanish _ => rfl

theorem Step.Ready.expire {s : Step} (h : s.Ready) : s.expire.Ready := by
  simpa [Step.Ready] using h

theorem Step.Ready.finish {s : Step} (h : s.Ready) : s.finish.Ready := by
  simpa [Step.Ready] using h

/-! ## Valid steps -/

mutual

/-- A step in which each sequence and each loop is in order. -/
def Step.Valid : Step → Prop
  | .sequence s => s.Valid
  | .loop l => l.Valid
  | .fire _ | .mutation _ | .wait _ | .vanish _ => True
termination_by structural s => s

/-- The steps before the cursor are done, the one under it is ready, and those after it are
pristine. -/
def Sequence.Valid : Sequence Step → Prop
  | ⟨_, _, children, cursor⟩ => Step.ValidAround children cursor
termination_by structural s => s

/-- A loop that was entered did not run too often, and its body is ready; one that was not entered is
pristine. -/
def LoopStep.Valid : LoopStep Step → Prop
  | ⟨_, some target, completed, body⟩ =>
    body.Valid ∧ completed ≤ target ∧ (Step.sequence body).Ready
  | ⟨_, none, completed, body⟩ => body.Valid ∧ completed = 0 ∧ body.Pristine
termination_by structural l => l

/-- The steps before a place are done, the one there is ready, and those after it are pristine. -/
def Step.ValidAround : List Step → Nat → Prop
  | [], n => n = 0
  | s :: rest, 0 => s.Valid ∧ s.Ready ∧ ∀ c ∈ rest, c.Pristine
  | s :: rest, n + 1 => s.Valid ∧ s.isDone = true ∧ Step.ValidAround rest n
termination_by structural l => l

end

/-- What it means for a sequence to be valid. -/
structure Sequence.InOrder (s : Sequence Step) : Prop where
  cursor_le : s.cursor ≤ s.children.length
  valid : ∀ c ∈ s.children, c.Valid
  before : ∀ i c, i < s.cursor → s.children[i]? = some c → c.isDone = true
  current : ∀ c, s.current? = some c → c.Ready
  after : ∀ i c, s.cursor < i → s.children[i]? = some c → c.Pristine

/-- What it means for a loop to be valid. -/
structure LoopStep.InOrder (l : LoopStep Step) : Prop where
  body : l.body.Valid
  entered : ∀ n, l.target = some n → l.completed ≤ n ∧ (Step.sequence l.body).Ready
  outside : l.target = none → l.completed = 0 ∧ l.body.Pristine

/-- A pristine step is valid. -/
theorem Step.Pristine.valid {s : Step} (h : s.Pristine) : s.Valid := by
  induction s using Step.induction with
  | sequence s ih =>
    obtain ⟨_, _, children, cursor⟩ := s
    obtain ⟨rfl, hc⟩ := Sequence.pristine_iff.1 (show Sequence.Pristine _ from h)
    cases children with
    | nil => rfl
    | cons c rest =>
      have hhead := hc c List.mem_cons_self
      exact ⟨ih c List.mem_cons_self hhead, hhead.ready, fun c hm => hc c (List.mem_cons_of_mem _ hm)⟩
  | loop l ih =>
    obtain ⟨_, _, _, body⟩ := l
    obtain ⟨rfl, rfl, hb⟩ := LoopStep.pristine_iff.1 (show LoopStep.Pristine _ from h)
    exact ⟨ih hb, rfl, hb⟩
  | fire _ | vanish _ | mutation _ | wait _ => trivial

theorem Sequence.Pristine.valid {s : Sequence Step} (h : s.Pristine) : s.Valid :=
  Step.Pristine.valid (s := .sequence s) h

theorem Step.ValidAround.inOrder {l : List Step} {n : Nat} (h : Step.ValidAround l n) :
    Sequence.InOrder ⟨none, .shared, l, n⟩ := by
  induction l generalizing n with
  | nil =>
    have hn : n = 0 := h
    exact ⟨by simp [hn], by simp, by simp, by simp [Sequence.current?], by simp⟩
  | cons s rest ih =>
    cases n with
    | zero =>
      -- The cursor is at the first step: none is before it, and what comes after is as it was built.
      obtain ⟨hv, hr, hp⟩ := h
      refine ⟨Nat.zero_le _, fun c hc => ?_, fun i _ hi => absurd hi (Nat.not_lt_zero i),
        fun c hc => Option.some.inj hc ▸ hr, fun i c hi hc => ?_⟩
      · rcases List.mem_cons.1 hc with rfl | hc
        · exact hv
        · exact (hp c hc).valid
      · cases i with
        | zero => cases hi
        | succ i => exact hp c (List.mem_of_getElem? hc)
    | succ n =>
      obtain ⟨hv, hd, hr⟩ := h
      obtain ⟨hle, hvalid, hbefore, hcurrent, hafter⟩ := ih hr
      refine ⟨Nat.succ_le_succ hle, fun c hc => ?_, fun i c hi hc => ?_, hcurrent,
        fun i c hi hc => ?_⟩
      · rcases List.mem_cons.1 hc with rfl | hc
        · exact hv
        · exact hvalid c hc
      · cases i with
        | zero => exact Option.some.inj hc ▸ hd
        | succ i => exact hbefore i c (Nat.lt_of_succ_lt_succ hi) hc
      · cases i with
        | zero => cases hi
        | succ i => exact hafter i c (Nat.lt_of_succ_lt_succ hi) hc

theorem Sequence.InOrder.validAround {l : List Step} {n : Nat}
    (h : Sequence.InOrder ⟨none, .shared, l, n⟩) : Step.ValidAround l n := by
  induction l generalizing n with
  | nil => exact Nat.le_zero.1 h.cursor_le
  | cons s rest ih =>
    cases n with
    | zero =>
      refine ⟨h.valid s List.mem_cons_self, h.current s rfl, fun c hc => ?_⟩
      obtain ⟨i, hi⟩ := List.mem_iff_getElem?.1 hc
      exact h.after (i + 1) c (Nat.succ_pos i) hi
    | succ n =>
      refine ⟨h.valid s List.mem_cons_self, h.before 0 s (Nat.succ_pos n) rfl, ih ?_⟩
      refine ⟨Nat.le_of_succ_le_succ h.cursor_le, fun c hc => ?_, fun i c hi hc => ?_, h.current,
        fun i c hi hc => ?_⟩
      · exact h.valid c (List.mem_cons_of_mem s hc)
      · exact h.before (i + 1) c (Nat.succ_lt_succ hi) hc
      · exact h.after (i + 1) c (Nat.succ_lt_succ hi) hc

theorem Sequence.valid_iff {s : Sequence Step} : s.Valid ↔ s.InOrder := by
  obtain ⟨_, _, children, cursor⟩ := s
  refine ⟨fun h => ?_, fun h => ?_⟩
  · obtain ⟨hle, hvalid, hbefore, hcurrent, hafter⟩ :=
      Step.ValidAround.inOrder (show Step.ValidAround children cursor from h)
    exact ⟨hle, hvalid, hbefore, hcurrent, hafter⟩
  · exact Sequence.InOrder.validAround ⟨h.cursor_le, h.valid, h.before, h.current, h.after⟩

theorem LoopStep.valid_iff {l : LoopStep Step} : l.Valid ↔ l.InOrder := by
  obtain ⟨_, _ | n, completed, body⟩ := l
  · exact ⟨fun ⟨hb, hn, hp⟩ => ⟨hb, nofun, fun _ => ⟨hn, hp⟩⟩,
      fun h => ⟨h.body, h.outside rfl⟩⟩
  · refine ⟨fun ⟨hb, hn, hr⟩ => ⟨hb, fun n hn' => ?_, nofun⟩, fun h => ⟨h.body, h.entered n rfl⟩⟩
    cases hn'
    exact ⟨hn, hr⟩

/-! ## What a host does to a step -/

theorem Sequence.Valid.map_expire {s : Sequence Step} (hs : s.Valid)
    (h : ∀ c ∈ s.children, c.Valid → c.expire.Valid) (scope : Scope) :
    Sequence.Valid { s with scope, children := s.children.map Step.expire } := by
  obtain ⟨hle, hvalid, hbefore, hcurrent, hafter⟩ := Sequence.valid_iff.1 hs
  have hget {i : Nat} {c : Step} (hc : (s.children.map Step.expire)[i]? = some c) :
      ∃ c', s.children[i]? = some c' ∧ c'.expire = c := by
    rw [List.getElem?_map] at hc
    exact Option.map_eq_some_iff.1 hc
  refine Sequence.valid_iff.2 ⟨by simpa using hle, ?_, fun i c hi hc => ?_, fun c hc => ?_,
    fun i c hi hc => ?_⟩
  · exact List.forall_mem_map.2 fun c hc => h c hc (hvalid c hc)
  · obtain ⟨c', hc', rfl⟩ := hget hc
    rw [Step.isDone_expire]
    exact hbefore i c' hi hc'
  · obtain ⟨c', hc', rfl⟩ := hget hc
    exact (hcurrent c' hc').expire
  · obtain ⟨c', hc', rfl⟩ := hget hc
    exact (hafter i c' hi hc').expire

/-- A step stays valid when the parameters around it change. -/
theorem Step.Valid.expire {s : Step} (h : s.Valid) : s.expire.Valid := by
  induction s using Step.induction with
  | sequence s ih =>
    have hs : s.Valid := h
    show s.expire.Valid
    rw [Sequence.expire_eq]
    by_cases hscope : s.scope.isShared = true
    · rw [if_pos hscope]
      exact hs.map_expire ih _
    · rw [if_neg hscope]
      obtain ⟨hle, hvalid, hbefore, hcurrent, hafter⟩ := Sequence.valid_iff.1 hs
      exact Sequence.valid_iff.2 ⟨hle, hvalid, hbefore, hcurrent, hafter⟩
  | loop l ih =>
    obtain ⟨hb, hentered, houtside⟩ := LoopStep.valid_iff.1 (show l.Valid from h)
    show l.expire.Valid
    rw [LoopStep.expire_eq]
    refine LoopStep.valid_iff.2 ⟨ih hb, fun n hn => ?_, fun hn => ?_⟩
    · obtain ⟨hle, hr⟩ := hentered n hn
      exact ⟨hle, Step.Ready.expire (s := .sequence l.body) hr⟩
    · obtain ⟨h0, hp⟩ := houtside hn
      exact ⟨h0, Step.Pristine.expire (s := .sequence l.body) hp⟩
  | fire _ | vanish _ | mutation _ | wait _ => trivial

/-- A step stays valid when it is given up on. -/
theorem Step.Valid.finish {s : Step} (h : s.Valid) : s.finish.Valid := by
  induction s using Step.induction with
  | sequence s ih =>
    obtain ⟨hle, hvalid, hbefore, hcurrent, hafter⟩ := Sequence.valid_iff.1 (show s.Valid from h)
    show s.finish.Valid
    rw [Sequence.finish_eq]
    have hget {i : Nat} {c : Step} (hi : i ≠ s.cursor)
        (hc : (s.children.modify s.cursor Step.finish)[i]? = some c) : s.children[i]? = some c := by
      rwa [List.getElem?_modify_ne _ _ (Ne.symm hi)] at hc
    refine Sequence.valid_iff.2 ⟨by simpa using hle, Step.forall_mem_modify hvalid ih,
      fun i c hi hc => ?_, fun c hc => ?_, fun i c hi hc => ?_⟩
    · exact hbefore i c hi (hget (Nat.ne_of_lt hi) hc)
    · have hc : (s.children.modify s.cursor Step.finish)[s.cursor]? = some c := hc
      rw [List.getElem?_modify_eq] at hc
      obtain ⟨c', hc', rfl⟩ := Option.map_eq_some_iff.1 hc
      exact (hcurrent c' hc').finish
    · exact hafter i c hi (hget (Nat.ne_of_gt hi) hc)
  | loop l ih =>
    obtain ⟨hb, hentered, houtside⟩ := LoopStep.valid_iff.1 (show l.Valid from h)
    show l.finish.Valid
    rw [LoopStep.finish_eq]
    refine LoopStep.valid_iff.2 ⟨ih hb, fun n hn => ?_, fun hn => ?_⟩
    · obtain ⟨hle, hr⟩ := hentered n hn
      exact ⟨hle, Step.Ready.finish (s := .sequence l.body) hr⟩
    · obtain ⟨h0, hp⟩ := houtside hn
      exact ⟨h0, Step.Pristine.finish (s := .sequence l.body) hp⟩
  | fire _ | vanish _ | mutation _ | wait _ => trivial

theorem Sequence.Valid.finish {s : Sequence Step} (h : s.Valid) : s.finish.Valid :=
  Step.Valid.finish (s := .sequence s) h

end Barrage
