import Barrage.Step.Valid
import Barrage.Step.Work

/-!
# The parts of a step

* `Step.Part`: a step occurs in another at some depth, or is it.
* `Step.Everywhere`: all parts of a step have a property. `Step.everywhere_sequence`,
  `Step.everywhere_loop` and `Step.everywhere_leaf` open it.
* `Step.Valid.everywhere`: all parts of a valid step are valid.
* `Step.Local`: properties that look at one step only, at the target of a loop or at whether a timed
  step was given up on. `Step.local_upheld` and `Step.local_bounded` are the two in use.
* `Step.Everywhere.expire`, `Step.Everywhere.finish`, `Step.everywhere_reset`, `Step.Everywhere.forget`:
  what is done to a step from outside keeps local properties, and a reset establishes them.
-/

namespace Barrage

/-- The step `d` occurs in another at some depth, or is it. -/
inductive Step.Part (d : Step) : Step → Prop where
  | refl : Part d d
  | child {s : Sequence Step} {c : Step} (hc : c ∈ s.children) (h : Part d c) :
    Part d (.sequence s)
  | body {l : LoopStep Step} (h : Part d (.sequence l.body)) : Part d (.loop l)

/-- All parts of a step have a property. -/
def Step.Everywhere (P : Step → Prop) (s : Step) : Prop := ∀ d : Step, d.Part s → P d

namespace Step

variable {P : Step → Prop}

theorem Everywhere.self {s : Step} (h : s.Everywhere P) : P s := h s .refl

theorem everywhere_sequence {s : Sequence Step} :
    (sequence s).Everywhere P ↔ P (.sequence s) ∧ ∀ c ∈ s.children, c.Everywhere P := by
  constructor
  · exact fun h => ⟨h.self, fun c hc d hd => h d (.child hc hd)⟩
  · rintro ⟨hs, hc⟩ d hd
    cases hd with
    | refl => exact hs
    | child hmem hd => exact hc _ hmem d hd

theorem everywhere_loop {l : LoopStep Step} :
    (loop l).Everywhere P ↔ P (.loop l) ∧ (sequence l.body).Everywhere P := by
  constructor
  · exact fun h => ⟨h.self, fun d hd => h d (.body hd)⟩
  · rintro ⟨hl, hb⟩ d hd
    cases hd with
    | refl => exact hl
    | body hd => exact hb d hd

/-- A leaf has no parts but itself. -/
theorem everywhere_leaf {s : Step} (h : s.height = 0) : s.Everywhere P ↔ P s := by
  refine ⟨Everywhere.self, fun hs d hd => ?_⟩
  cases hd with
  | refl => exact hs
  | @child s _ _ _ =>
    have hh : s.height = 0 := h
    rw [Sequence.height_eq] at hh
    omega
  | @body l _ =>
    have hh : l.height = 0 := h
    rw [LoopStep.height_eq, Sequence.height_eq] at hh
    omega

/-- All parts of a valid step are valid. -/
theorem Valid.everywhere {s : Step} (h : s.Valid) : s.Everywhere Valid := by
  induction s using Step.induction with
  | sequence s ih =>
    have hvalid := (Sequence.valid_iff.1 (show s.Valid from h)).valid
    exact everywhere_sequence.2 ⟨h, fun c hc => ih c hc (hvalid c hc)⟩
  | loop l ih =>
    have hbody := (LoopStep.valid_iff.1 (show l.Valid from h)).body
    exact everywhere_loop.2 ⟨h, ih hbody⟩
  | fire _ | mutation _ | wait _ | vanish _ => exact (everywhere_leaf rfl).2 h

/-! ## Local properties -/

/-- A property that looks at one step only: at the target of a loop, which is a count, and at whether
a timed step was given up on, which a reset undoes. -/
structure Local (P : Step → Prop) : Prop where
  sequence (s) : P (.sequence s)
  outside {l : LoopStep Step} (ht : l.target = none) : P (.loop l)
  entered {l : LoopStep Step} {x : Scalar} (ht : l.target = some x.count.toNat) : P (.loop l)
  loop {l l' : LoopStep Step} (ht : l'.target = l.target) (h : P (.loop l)) : P (.loop l')
  fire (f) : P (.fire f)
  mutation {m m' : MutationStep} (hf : m'.finished = m.finished) (h : P (.mutation m)) :
    P (.mutation m')
  mutation_reset (m) : P (.mutation (MutationStep.reset m))
  wait {w w' : WaitStep} (hf : w'.finished = w.finished) (h : P (.wait w)) : P (.wait w')
  wait_reset (w) : P (.wait (WaitStep.reset w))
  vanish (triggered) : P (.vanish triggered)

/-- Whether a step is a timed one that was given up on. -/
def isGivenUp : Step → Bool
  | mutation m => m.finished
  | wait w => w.finished
  | _ => false

/-- A step that was not given up on. -/
def Upheld (s : Step) : Prop := s.isGivenUp = false

theorem local_upheld : Local Upheld where
  sequence _ := rfl
  outside _ := rfl
  entered _ := rfl
  loop _ _ := rfl
  fire _ := rfl
  mutation hf h := hf.trans h
  mutation_reset _ := rfl
  wait hf h := hf.trans h
  wait_reset _ := rfl
  vanish _ := rfl

/-- A step that is no loop with a target beyond the largest count. -/
def Bounded : Step → Prop
  | loop l => ∀ n, l.target = some n → n ≤ Scalar.maxCount
  | _ => True

theorem local_bounded : Local Bounded where
  sequence _ := trivial
  outside ht n hn := by
    rw [ht] at hn
    cases hn
  entered {_ x} ht n hn := by
    obtain rfl := Option.some.inj (ht.symm.trans hn)
    exact x.count_le
  loop ht h n hn := h n (ht.symm.trans hn)
  fire _ := trivial
  mutation _ _ := trivial
  mutation_reset _ := trivial
  wait _ _ := trivial
  wait_reset _ := trivial
  vanish _ := trivial

/-- The steps of a sequence replaced by their images have a local property if these have. -/
theorem Local.map (hP : Local P) {s s' : Sequence Step} {f : Step → Step}
    (hs : s'.children = s.children.map f) (h : ∀ c ∈ s.children, (f c).Everywhere P) :
    (Step.sequence s').Everywhere P := by
  refine everywhere_sequence.2 ⟨hP.sequence s', ?_⟩
  rw [hs]
  exact List.forall_mem_map.2 h

theorem Everywhere.expire (hP : Local P) {s : Step} (h : s.Everywhere P) :
    s.expire.Everywhere P := by
  induction s using Step.induction with
  | sequence s ih =>
    have hc := (everywhere_sequence.1 h).2
    show (Step.sequence s.expire).Everywhere P
    rw [Sequence.expire_eq]
    by_cases hs : s.scope.isShared = true
    · rw [if_pos hs]
      exact hP.map rfl fun c hmem => ih c hmem (hc c hmem)
    · rw [if_neg hs]
      exact everywhere_sequence.2 ⟨hP.sequence _, hc⟩
  | loop l ih =>
    obtain ⟨hl, hb⟩ := everywhere_loop.1 h
    show (Step.loop l.expire).Everywhere P
    rw [LoopStep.expire_eq]
    exact everywhere_loop.2 ⟨hP.loop (l := l) rfl hl, ih hb⟩
  | fire f => exact (everywhere_leaf rfl).2 (hP.fire _)
  | mutation _ | wait _ | vanish _ => exact h

theorem everywhere_reset (hP : Local P) (s : Step) : s.reset.Everywhere P := by
  induction s using Step.induction with
  | sequence s ih =>
    show (Step.sequence s.reset).Everywhere P
    rw [Sequence.reset_eq]
    exact hP.map rfl ih
  | loop l ih =>
    show (Step.loop l.reset).Everywhere P
    rw [LoopStep.reset_eq]
    exact everywhere_loop.2 ⟨hP.outside rfl, ih⟩
  | fire f => exact (everywhere_leaf rfl).2 (hP.fire _)
  | mutation m => exact (everywhere_leaf rfl).2 (hP.mutation_reset m)
  | wait w => exact (everywhere_leaf rfl).2 (hP.wait_reset w)
  | vanish _ => exact (everywhere_leaf rfl).2 (hP.vanish _)

/-- A property that does not look at timed steps does not see that one is given up on. -/
theorem Everywhere.finish (hP : Local P) (hm : ∀ m, P (.mutation m))
    (hw : ∀ w, P (.wait w)) {s : Step} (h : s.Everywhere P) : s.finish.Everywhere P := by
  induction s using Step.induction with
  | sequence s ih =>
    have hc := (everywhere_sequence.1 h).2
    show (Step.sequence s.finish).Everywhere P
    rw [Sequence.finish_eq]
    exact everywhere_sequence.2 ⟨hP.sequence _, forall_mem_modify hc ih⟩
  | loop l ih =>
    obtain ⟨hl, hb⟩ := everywhere_loop.1 h
    show (Step.loop l.finish).Everywhere P
    rw [LoopStep.finish_eq]
    exact everywhere_loop.2 ⟨hP.loop (l := l) rfl hl, ih hb⟩
  | mutation m => exact (everywhere_leaf rfl).2 (hm _)
  | wait w => exact (everywhere_leaf rfl).2 (hw _)
  | fire _ | vanish _ => exact h

theorem Everywhere.forget (hP : Local P) {s : Step} (h : s.Everywhere P) :
    s.forget.Everywhere P := by
  induction s using Step.induction with
  | sequence s ih =>
    have hc := (everywhere_sequence.1 h).2
    show (Step.sequence s.forget).Everywhere P
    rw [Sequence.forget_eq]
    exact hP.map rfl fun c hmem => ih c hmem (hc c hmem)
  | loop l ih =>
    obtain ⟨hl, hb⟩ := everywhere_loop.1 h
    show (Step.loop l.forget).Everywhere P
    rw [LoopStep.forget_eq]
    exact everywhere_loop.2 ⟨hP.loop (l := l) rfl hl, ih hb⟩
  | fire f => exact (everywhere_leaf rfl).2 (hP.fire _)
  | mutation _ | wait _ | vanish _ => exact h

/-- A step that is as it was before it was first entered has all local properties. -/
theorem everywhere_of_blank (hP : Local P) {s : Step} (h : s.blank = s) : s.Everywhere P := by
  rw [← h]
  exact (everywhere_reset hP s).forget hP

end Step

end Barrage
