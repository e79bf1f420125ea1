import Barrage.Step.Forget

/-!
# Steps that were not entered yet

* `Step.Tidy`: along the cursors of a step only sequences were entered, and what comes after the cursors was
  not entered at all. A pattern is like that between turns as long as none of its leaves and loops has to
  wait.
* `Step.expire_of_blank`: new parameters do not matter to a step that was not entered.
* `Step.Tidy.expire`: new parameters keep a step tidy.
-/

namespace Barrage

/-- New parameters do not matter to a step that was not entered yet. -/
theorem Step.expire_of_blank {s : Step} (h : s.blank = s) : s.expire = s := by
  induction s using Step.induction with
  | sequence s ih =>
    rw [Step.blank_sequence, Sequence.blank_eq] at h
    obtain ⟨label, scope, children, cursor⟩ := s
    simp only [Step.sequence.injEq, Sequence.mk.injEq, true_and] at h
    obtain ⟨hscope, hchildren, -⟩ := h
    have hall : children.map Step.expire = children := by
      have hblank := List.map_inj_left.1 (hchildren.trans (List.map_id _).symm)
      exact (List.map_congr_left fun c hc => ih c hc (hblank c hc)).trans (List.map_id _)
    rw [Step.expire, Sequence.expire_eq]
    rcases scope with _ | ⟨args, values, current⟩
    · simp [Scope.expire, hall, Scope.isShared]
    · cases hscope
      rfl
  | loop l ih =>
    rw [Step.blank_loop] at h
    obtain ⟨times, target, completed, body⟩ := l
    simp only [Step.loop.injEq, LoopStep.mk.injEq, true_and] at h
    have hbody : body.expire = body := Step.sequence.inj (ih (congrArg Step.sequence h.2.2))
    rw [Step.expire, LoopStep.expire_eq, hbody]
  | fire f =>
    obtain ⟨fire, definition, args, scope, fired⟩ := f
    simp only [Step.blank, Step.reset, Step.forget, FireStep.reset, Step.fire.injEq, FireStep.mk.injEq,
      true_and] at h
    rcases scope with _ | ⟨args, values, current⟩
    · rfl
    · cases h.1
      rfl
  | mutation _ | wait _ | vanish _ => rfl

theorem Step.blank_of_mem {s : Sequence Step} (h : s.blank = s) {c : Step} (hc : c ∈ s.children) :
    c.blank = c := by
  rw [Sequence.blank_eq] at h
  exact List.map_inj_left.1 ((congrArg Sequence.children h).trans (List.map_id _).symm) c hc

/-- A step along whose cursors only sequences were entered. -/
inductive Step.Tidy : Step → Prop where
  | fresh {c : Step} (h : c.blank = c) : Tidy c
  | entered {s : Sequence Step}
    (later : ∀ (i : Nat) (c : Step), s.cursor < i → s.children[i]? = some c → c.blank = c)
    (current : ∀ c, s.current? = some c → Tidy c) : Tidy (.sequence s)

theorem Sequence.tidy_iff {s : Sequence Step} :
    (Step.sequence s).Tidy ↔
      (∀ (i : Nat) (c : Step), s.cursor < i → s.children[i]? = some c → c.blank = c) ∧
        ∀ c, s.current? = some c → c.Tidy := by
  constructor
  · rintro (⟨h⟩ | ⟨later, current⟩)
    · have hblank {i : Nat} {c : Step} (hc : s.children[i]? = some c) : c.blank = c :=
        Step.blank_of_mem (Step.sequence.inj h) (List.mem_of_getElem? hc)
      exact ⟨fun i c _ hc => hblank hc, fun c hc => .fresh (hblank hc)⟩
    · exact ⟨later, current⟩
  · rintro ⟨later, current⟩
    exact .entered later current

/-- A tidy step that is no sequence was not entered. -/
theorem Step.Tidy.blank {c : Step} (h : c.Tidy) (hk : c.kind ≠ .sequence) : c.blank = c := by
  cases h with
  | fresh h => exact h
  | entered => exact absurd rfl hk

namespace Sequence

variable {s : Sequence Step}

/-- New parameters for all steps of a sequence keep it tidy. -/
theorem tidy_expireAll (h : (Step.sequence s).Tidy) (hc : ∀ c, s.current? = some c → c.expire.Tidy)
    {s' : Sequence Step} (hcursor : s'.cursor = s.cursor)
    (hchildren : s'.children = s.children.map Step.expire) : (Step.sequence s').Tidy := by
  obtain ⟨later, -⟩ := tidy_iff.1 h
  refine tidy_iff.2 ⟨fun i c' hi hc' => ?_, fun c' hc' => ?_⟩
  · rw [hchildren, List.getElem?_map] at hc'
    obtain ⟨c, hget, rfl⟩ := Option.map_eq_some_iff.1 hc'
    have hblank := later i c (hcursor ▸ hi) hget
    rw [Step.blank_expire, hblank, Step.expire_of_blank hblank]
  · rw [current?, hchildren, hcursor, List.getElem?_map] at hc'
    obtain ⟨c, hget, rfl⟩ := Option.map_eq_some_iff.1 hc'
    exact hc c hget

end Sequence

/-- New parameters keep a step tidy. -/
theorem Step.Tidy.expire {s : Step} (h : s.Tidy) : s.expire.Tidy := by
  induction h with
  | fresh h =>
    rw [Step.expire_of_blank h]
    exact .fresh h
  | @entered s later current ih =>
    by_cases hs : s.scope.isShared = true
    · refine Sequence.tidy_expireAll (.entered later current) ih ?_ ?_ <;> rw [Sequence.expire_eq]
      exact if_pos hs
    · refine Sequence.tidy_iff.2 ?_
      rw [Sequence.expire_eq, if_neg hs]
      exact ⟨later, current⟩

end Barrage
