import Barrage.Step.Lemmas

/-!
# Cursors and counters

* `Step.counters`: the cursors and counters in a step, each before those in the parts below it.
* `Step.Gained`: some cursor or counter has increased.
* `Ahead`: the first cursor or counter that differs has increased. Unlike `Step.Gained` this can be
  chained, whatever was reset on the way.
* `Step.countersOfAll_set`: what replacing a step in a list does to the counters.
-/

namespace Barrage

mutual

/-- The cursors and counters in a step. -/
def Step.counters : Step → List Nat
  | .sequence s => s.counters
  | .loop l => l.counters
  | .fire _ | .mutation _ | .wait _ | .vanish _ => []
termination_by structural s => s

/-- The cursor of a sequence and what is counted in its steps. -/
def Sequence.counters : Sequence Step → List Nat
  | ⟨_, _, children, cursor⟩ => cursor :: Step.countersOfAll children
termination_by structural s => s

/-- The iterations that a loop has completed and what is counted in its body. -/
def LoopStep.counters : LoopStep Step → List Nat
  | ⟨_, _, completed, body⟩ => completed :: body.counters
termination_by structural l => l

/-- What is counted in several steps. -/
def Step.countersOfAll : List Step → List Nat
  | [] => []
  | s :: rest => s.counters ++ Step.countersOfAll rest
termination_by structural l => l

end

/-- Some cursor or counter has increased. -/
def Step.Gained (s s' : Step) : Prop :=
  ∃ (i m n : Nat), s.counters[i]? = some m ∧ s'.counters[i]? = some n ∧ m < n

/-! ## Counters that are ahead -/

/-- The first number that differs has increased. -/
inductive Ahead : List Nat → List Nat → Prop where
  | here {m n l l'} (h : m < n) : Ahead (m :: l) (n :: l')
  | later {m l l'} (h : Ahead l l') : Ahead (m :: l) (m :: l')

namespace Ahead

variable {l l' l'' : List Nat}

theorem trans (h : Ahead l l') (h' : Ahead l' l'') : Ahead l l'' := by
  induction h generalizing l'' with
  | here h =>
    cases h' with
    | here h' => exact .here (Nat.lt_trans h h')
    | later h' => exact .here h
  | later _ ih =>
    cases h' with
    | here h' => exact .here h'
    | later h' => exact .later (ih h')

theorem append_left (h : Ahead l l') (before : List Nat) : Ahead (before ++ l) (before ++ l') := by
  induction before with
  | nil => exact h
  | cons n rest ih => exact .later ih

theorem append_right (h : Ahead l l') (after after' : List Nat) :
    Ahead (l ++ after) (l' ++ after') := by
  induction h with
  | here h => exact .here h
  | later _ ih => exact .later ih

theorem exists_lt (h : Ahead l l') :
    ∃ (i m n : Nat), l[i]? = some m ∧ l'[i]? = some n ∧ m < n := by
  induction h with
  | @here m n l l' h => exact ⟨0, m, n, rfl, rfl, h⟩
  | later _ ih =>
    obtain ⟨i, m, n, hm, hn, h⟩ := ih
    exact ⟨i + 1, m, n, hm, hn, h⟩

end Ahead

theorem Step.not_gained_of_eq {s s' : Step} (h : s'.counters = s.counters) : ¬ s.Gained s' := by
  rintro ⟨i, m, n, hm, hn, hlt⟩
  rw [h, hm] at hn
  cases hn
  exact Nat.lt_irrefl m hlt

/-! ## The counters of the parts -/

theorem Sequence.counters_eq (s : Sequence Step) :
    s.counters = s.cursor :: Step.countersOfAll s.children := by
  cases s
  rfl

theorem LoopStep.counters_eq (l : LoopStep Step) : l.counters = l.completed :: l.body.counters := by
  cases l
  rfl

/-- Replacing a step in a list changes what is counted in it. -/
theorem Step.countersOfAll_set {l : List Step} {n : Nat} {s : Step} (h : l[n]? = some s) :
    ∃ before after, Step.countersOfAll l = before ++ (s.counters ++ after) ∧
      ∀ s', Step.countersOfAll (l.set n s') = before ++ (s'.counters ++ after) := by
  induction l generalizing n with
  | nil => simp at h
  | cons a rest ih =>
    cases n with
    | zero =>
      obtain rfl : a = s := Option.some.inj h
      exact ⟨[], Step.countersOfAll rest, rfl, fun _ => rfl⟩
    | succ n =>
      obtain ⟨before, after, hl, hset⟩ := ih (n := n) h
      refine ⟨a.counters ++ before, after, ?_, fun s' => ?_⟩
      · rw [Step.countersOfAll, hl, List.append_assoc]
      · show a.counters ++ Step.countersOfAll (rest.set n s') = _
        rw [hset, List.append_assoc]

theorem Step.countersOfAll_map {l : List Step} {f : Step → Step}
    (h : ∀ s ∈ l, (f s).counters = s.counters) :
    Step.countersOfAll (l.map f) = Step.countersOfAll l := by
  induction l with
  | nil => rfl
  | cons s rest ih =>
    have hrest := ih fun c hc => h c (List.mem_cons_of_mem s hc)
    rw [List.map_cons, Step.countersOfAll, hrest, h s List.mem_cons_self, Step.countersOfAll]

/-- Nothing is counted when the parameters around a step change. -/
theorem Step.counters_expire (s : Step) : s.expire.counters = s.counters := by
  induction s using Step.induction with
  | sequence s ih =>
    show s.expire.counters = s.counters
    rw [Sequence.counters_eq, Sequence.counters_eq, Sequence.expire_eq]
    split
    · exact congrArg _ (Step.countersOfAll_map ih)
    · rfl
  | loop l ih =>
    show l.expire.counters = l.counters
    rw [LoopStep.counters_eq, LoopStep.counters_eq, LoopStep.expire_eq]
    exact congrArg _ ih
  | fire _ | vanish _ | mutation _ | wait _ => rfl

end Barrage
