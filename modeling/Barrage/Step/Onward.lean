import Barrage.Step.Lemmas

/-!
# Steps that go on

* `Step.Onward`: how a step can differ from what it was when it was not reset in between. No cursor
  has gone back and no fire is to be made again, except in the body of a loop that has completed
  iterations since: its body was reset between them.
* `Step.onward_refl`, `Step.Onward.trans`: the relation can be chained.
* `Step.onward_expire`, `Step.onward_finish`: a change of the parameters around a step and giving up on
  it are no steps back.
-/

namespace Barrage

/-- A step and what it is later on, if it was not reset in between. -/
inductive Step.Onward : Step → Step → Prop where
  | sequence {s s' : Sequence Step} (hn : s.cursor ≤ s'.cursor)
    (hl : s'.children.length = s.children.length)
    (hc : ∀ (i : Nat) (c c' : Step), s.children[i]? = some c → s'.children[i]? = some c' →
      Onward c c') :
    Onward (.sequence s) (.sequence s')
  /-- The loop has completed iterations, so its body was reset. -/
  | again {l l' : LoopStep Step} (ht : ∀ n, l.target = some n → l'.target = some n)
    (hn : l.completed < l'.completed) : Onward (.loop l) (.loop l')
  /-- The loop is in the same iteration. -/
  | within {l l' : LoopStep Step} (ht : ∀ n, l.target = some n → l'.target = some n)
    (hn : l'.completed = l.completed) (hb : Onward (.sequence l.body) (.sequence l'.body)) :
    Onward (.loop l) (.loop l')
  | fire {f f' : FireStep} (hf : f.fired = true → f'.fired = true) : Onward (.fire f) (.fire f')
  | mutation {m m' : MutationStep} : Onward (.mutation m) (.mutation m')
  | wait {w w' : WaitStep} : Onward (.wait w) (.wait w')
  | vanish {b b' : Bool} (hb : b = true → b' = true) : Onward (.vanish b) (.vanish b')

namespace Step

theorem onward_refl (s : Step) : s.Onward s := by
  induction s using Step.induction with
  | sequence s ih =>
    refine .sequence (Nat.le_refl _) rfl fun i c c' hc hc' => ?_
    obtain rfl := Option.some.inj (hc.symm.trans hc')
    exact ih c (List.mem_of_getElem? hc)
  | loop l ih => exact .within (fun _ h => h) rfl ih
  | fire _ => exact .fire id
  | mutation _ => exact .mutation
  | wait _ => exact .wait
  | vanish _ => exact .vanish id

theorem Onward.trans {s s' s'' : Step} (h : s.Onward s') (h' : s'.Onward s'') : s.Onward s'' := by
  induction h generalizing s'' with
  | @sequence s s₁ hn hl _ ih =>
    cases h' with
    | @sequence _ s₂ hn' hl' hc' =>
      refine .sequence (Nat.le_trans hn hn') (hl'.trans hl) fun i c c₂ hc hc₂ => ?_
      have hlt : i < s₁.children.length := by
        rw [hl]
        exact (List.getElem?_eq_some_iff.1 hc).1
      have hc₁ : s₁.children[i]? = some s₁.children[i] := List.getElem?_eq_getElem hlt
      exact ih i c _ hc hc₁ (hc' i _ c₂ hc₁ hc₂)
  | again ht hn =>
    cases h' with
    | again ht' hn' => exact .again (fun n h => ht' n (ht n h)) (Nat.lt_trans hn hn')
    | within ht' hn' _ => exact .again (fun n h => ht' n (ht n h)) (hn' ▸ hn)
  | within ht hn _ ih =>
    cases h' with
    | again ht' hn' => exact .again (fun n h => ht' n (ht n h)) (hn ▸ hn')
    | within ht' hn' hb' => exact .within (fun n h => ht' n (ht n h)) (hn'.trans hn) (ih hb')
  | fire hf =>
    cases h' with
    | fire hf' => exact .fire fun h => hf' (hf h)
  | mutation =>
    cases h' with
    | mutation => exact .mutation
  | wait =>
    cases h' with
    | wait => exact .wait
  | vanish hb =>
    cases h' with
    | vanish hb' => exact .vanish fun h => hb' (hb h)

/-- A sequence whose cursor has not gone back and whose steps are images of what they were. -/
theorem Onward.map {s s' : Sequence Step} {f : Step → Step} (hn : s.cursor ≤ s'.cursor)
    (hs : s'.children = s.children.map f) (h : ∀ c ∈ s.children, c.Onward (f c)) :
    (Step.sequence s).Onward (.sequence s') := by
  refine .sequence hn (by simp [hs]) fun i c c' hc hc' => ?_
  rw [hs, List.getElem?_map, hc] at hc'
  obtain rfl := Option.some.inj hc'
  exact h c (List.mem_of_getElem? hc)

theorem onward_expire (s : Step) : s.Onward s.expire := by
  induction s using Step.induction with
  | sequence s ih =>
    show (Step.sequence s).Onward (.sequence s.expire)
    rw [Sequence.expire_eq]
    by_cases hs : s.scope.isShared = true
    · rw [if_pos hs]
      exact .map (Nat.le_refl _) rfl ih
    · rw [if_neg hs]
      exact .map (f := id) (Nat.le_refl _) (List.map_id _).symm fun c _ => c.onward_refl
  | loop l ih =>
    show (Step.loop l).Onward (.loop l.expire)
    rw [LoopStep.expire_eq]
    exact .within (fun _ h => h) rfl ih
  | fire _ => exact .fire id
  | mutation _ => exact .mutation
  | wait _ => exact .wait
  | vanish _ => exact .vanish id

theorem onward_finish (s : Step) : s.Onward s.finish := by
  induction s using Step.induction with
  | sequence s ih =>
    show (Step.sequence s).Onward (.sequence s.finish)
    rw [Sequence.finish_eq]
    refine .sequence (Nat.le_refl _) (List.length_modify ..) fun i c c' hc hc' => ?_
    rw [List.getElem?_modify, hc] at hc'
    obtain rfl := Option.some.inj hc'
    show c.Onward (if s.cursor = i then c.finish else c)
    by_cases hi : s.cursor = i
    · rw [if_pos hi]
      exact ih c (List.mem_of_getElem? hc)
    · rw [if_neg hi]
      exact c.onward_refl
  | loop l ih =>
    show (Step.loop l).Onward (.loop l.finish)
    rw [LoopStep.finish_eq]
    exact .within (fun _ h => h) rfl ih
  | fire _ => exact .fire id
  | mutation _ => exact .mutation
  | wait _ => exact .wait
  | vanish _ => exact .vanish id

end Step

end Barrage
