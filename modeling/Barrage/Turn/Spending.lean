import Barrage.Turn.Contract
import Barrage.Turn.Journal

/-!
# What a turn uses up

Each iteration of a loop uses up one of those that are left, and a leaf has its turn only in an
iteration of its own, unless it is the only one of the turn.

* `iterations`, `leaves`, `bulletsMade`: how many iterations, turns of leaves and new bullets some events
  tell of.
* `Turn.Spends`: what a turn went on with, against the iterations it used up. `Turn.Spends.round` is one
  round of a loop, `Turn.Spends.trans` one round after another.
* `Sequence.advance_spends`: every turn is like that.
* `LoopStep.rounds_eq`: the rounds of a loop, one at a time; each leaves fewer iterations.
-/

namespace Barrage

/-- Whether an event tells of an iteration. -/
def Event.isIteration : Event → Bool
  | iterated => true
  | _ => false

/-- Whether an event tells of a leaf that is given its turn. -/
def Event.isLeaf : Event → Bool
  | began _ => true
  | _ => false

/-- Whether an event tells of a bullet that is made. -/
def Event.isCreation : Event → Bool
  | created _ => true
  | _ => false

/-- The iterations that some events tell of. -/
def iterations (es : List Event) : Nat := es.countP Event.isIteration

/-- The turns of leaves that some events tell of. -/
def leaves (es : List Event) : Nat := es.countP Event.isLeaf

/-- The new bullets that some events tell of. -/
def bulletsMade (es : List Event) : Nat := es.countP Event.isCreation

@[simp] theorem iterations_append (es es' : List Event) :
    iterations (es ++ es') = iterations es + iterations es' := List.countP_append

@[simp] theorem leaves_append (es es' : List Event) :
    leaves (es ++ es') = leaves es + leaves es' := List.countP_append

@[simp] theorem bulletsMade_append (es es' : List Event) :
    bulletsMade (es ++ es') = bulletsMade es + bulletsMade es' := List.countP_append

namespace Turn

variable {φ ρ α : Type} {t t' t'' : Turn φ ρ α} {es es' : List Event}

/-- The events of a turn tell of all iterations that it used up and of all bullets that it made. -/
structure Accounts (t t' : Turn φ ρ α) (es : List Event) : Prop where
  logs : t.Logs t' es
  budget : t'.budget + iterations es = t.budget
  spawned : t'.spawned.size = t.spawned.size + bulletsMade es

theorem Accounts.refl (t : Turn φ ρ α) : t.Accounts t [] := ⟨.refl t, rfl, rfl⟩

theorem Accounts.trans (h : t.Accounts t' es) (h' : t'.Accounts t'' es') :
    t.Accounts t'' (es ++ es') where
  logs := h.logs.trans h'.logs
  budget := by
    rw [iterations_append, ← h.budget, ← h'.budget]
    omega
  spawned := by rw [bulletsMade_append, h'.spawned, h.spawned, Nat.add_assoc]

/-- An event that tells of no iteration and of no bullet. -/
theorem Accounts.of_push {e : Event} (hj : t'.journal = t.journal.push e)
    (hb : t'.budget = t.budget) (hs : t'.spawned = t.spawned) (hi : e.isIteration = false)
    (hc : e.isCreation = false) : t.Accounts t' [e] where
  logs := by rw [Logs, hj, Array.toList_push]
  budget := by simp [hb, iterations, hi]
  spawned := by simp [hs, bulletsMade, hc]

/-- A turn that went on with some events. There are no more new bullets than turns of leaves, and
these are no more than the iterations, or than the `spare` ones that need none. -/
def Spends (spare : Nat) (t t' : Turn φ ρ α) : Prop :=
  ∃ es, t.Accounts t' es ∧ bulletsMade es ≤ leaves es ∧ leaves es ≤ max spare (iterations es)

theorem Draws.accounts (h : t.Draws t') :
    ∃ es, t.Accounts t' es ∧ iterations es = 0 ∧ bulletsMade es = 0 ∧ leaves es = 0 := by
  obtain ⟨es, hl, hm⟩ := h.journal
  have hnone {p : Event → Bool} (hp : ∀ f params, p (.evaluated f params) = false) :
      es.countP p = 0 := by
    refine List.countP_eq_zero.2 fun e he => ?_
    obtain ⟨f, params, rfl⟩ := hm e he
    simp [hp]
  have hi : iterations es = 0 := hnone fun _ _ => rfl
  have hc : bulletsMade es = 0 := hnone fun _ _ => rfl
  refine ⟨es, ⟨hl, ?_, ?_⟩, hi, hc, hnone fun _ _ => rfl⟩
  · rw [hi, h.budget, Nat.add_zero]
  · rw [hc, h.spawned, Nat.add_zero]

theorem Spends.refl (spare : Nat) (t : Turn φ ρ α) : t.Spends spare t :=
  ⟨[], .refl t, Nat.le_refl _, Nat.zero_le _⟩

/-- Formulas may be evaluated first. -/
theorem Spends.prepend {spare : Nat} (h : t'.Spends spare t'') (hd : t.Draws t') :
    t.Spends spare t'' := by
  obtain ⟨es, ha, hi, hc, hl⟩ := hd.accounts
  obtain ⟨es', ha', hcreated, hleaves⟩ := h
  refine ⟨es ++ es', ha.trans ha', ?_, ?_⟩
  · rw [bulletsMade_append, leaves_append, hc, hl]
    omega
  · rw [iterations_append, leaves_append, hi, hl]
    omega

theorem Spends.mono {spare spare' : Nat} (h : t.Spends spare t') (hle : spare ≤ spare') :
    t.Spends spare' t' := by
  obtain ⟨es, ha, hcreated, hleaves⟩ := h
  exact ⟨es, ha, hcreated, by omega⟩

/-- What needs no leaf to spare can be followed by more of the kind. -/
theorem Spends.trans (h : t.Spends 0 t') (h' : t'.Spends 0 t'') : t.Spends 0 t'' := by
  obtain ⟨es, ha, hcreated, hleaves⟩ := h
  obtain ⟨es', ha', hcreated', hleaves'⟩ := h'
  refine ⟨es ++ es', ha.trans ha', ?_, ?_⟩
  · rw [bulletsMade_append, leaves_append]
    omega
  · rw [iterations_append, leaves_append]
    omega

/-- The iteration that a round of a loop uses up pays for the leaf that its body may have to spare. -/
theorem Spends.round (hb : t.budget ≠ 0) (h : t.spend.Spends 1 t') : t.Spends 0 t' := by
  obtain ⟨es, ha, hcreated, hleaves⟩ := h
  -- one iteration more, and no leaf: what was at most `max 1 n` is at most `n + 1`
  have hspend : t.Accounts t.spend [.iterated] :=
    ⟨Turn.logs_log _ _, by simp [iterations, Event.isIteration]; omega, rfl⟩
  refine ⟨_, hspend.trans ha, ?_, ?_⟩
  · simpa [bulletsMade, leaves, Event.isCreation, Event.isLeaf] using hcreated
  · rw [iterations_append, leaves_append]
    simp only [iterations, leaves, List.countP_cons, List.countP_nil, Event.isIteration,
      Event.isLeaf] at hleaves ⊢
    simp only [Bool.false_eq_true, if_false, if_true]
    omega

theorem spends_exhaust (t : Turn φ ρ α) : t.Spends 0 t.exhaust :=
  ⟨[.exhausted], .of_push rfl rfl rfl rfl rfl, Nat.le_refl _, Nat.le_refl _⟩

end Turn

/-! ## The turns of leaves -/

section Leaves

variable {φ ρ α : Type}

/-- A leaf that begins, evaluates its formulas, and makes one bullet at most. -/
theorem Turn.Spends.of_began {kind : StepKind} {t t' t'' : Turn φ ρ α} {es : List Event}
    (hd : (t.log (.began kind)).Draws t') (ha : t'.Accounts t'' es) (hc : bulletsMade es ≤ 1)
    (hl : leaves es = 0) : t.Spends 1 t'' := by
  obtain ⟨es', ha', -, hc', hl'⟩ := hd.accounts
  have hbegan : t.Accounts (t.log (.began kind)) [.began kind] := .of_push rfl rfl rfl rfl rfl
  refine ⟨[.began kind] ++ (es' ++ es), hbegan.trans (ha'.trans ha), ?_, ?_⟩
  · rw [bulletsMade_append, leaves_append, bulletsMade_append, leaves_append, hc', hl', hl]
    show 0 + (0 + bulletsMade es) ≤ 1 + _
    omega
  · rw [leaves_append, leaves_append, hl', hl]
    exact Nat.le_max_left _ _

variable [RandomSource ρ] (stage : Stage) (params : Params) (t : Turn φ ρ α)

theorem WaitStep.spends_dispatch (w : WaitStep) : t.Spends 1 (w.dispatch stage params t).turn := by
  rcases w.dispatch_cases stage params t with
    ⟨_, t', -, hd, h⟩ | ⟨d, t', w', -, hd, -, h⟩ <;> rw [h]
  · exact .of_began hd (.refl t') (Nat.zero_le _) rfl
  · exact .of_began hd (.of_push rfl rfl rfl rfl rfl) (Nat.zero_le _) rfl

theorem MutationStep.spends_dispatch (m : MutationStep) :
    t.Spends 1 (m.dispatch stage params t).turn := by
  rcases m.dispatch_cases stage params t with
    ⟨_, t', -, hd, h⟩ | ⟨g, t', m', -, hd, -, h⟩ <;> rw [h]
  · exact .of_began hd (.refl t') (Nat.zero_le _) rfl
  · have hsteer : t'.Accounts
        ({ t' with owner := m.steering.write t'.owner (g.valueAt m'.elapsed) }.log .steered)
        [.steered] := .of_push rfl rfl rfl rfl rfl
    exact .of_began hd (hsteer.trans (.of_push rfl rfl rfl rfl rfl)) (Nat.zero_le _) rfl

theorem FireStep.spends_dispatch [BulletFactory φ α] (f : FireStep) :
    t.Spends 1 (f.dispatch stage params t).turn := by
  rcases f.dispatch_cases stage params t with
    ⟨_, t', _, hd, -, h⟩ | ⟨_, _, _, r, t', -, -, hd, h⟩ <;> rw [h]
  · exact .of_began hd (.refl t') (Nat.zero_le _) rfl
  · have hmake : t'.Accounts (t'.make stage f.definition r) [.created _] :=
      ⟨Array.toList_push, rfl, Array.size_push _⟩
    exact .of_began hd (hmake.trans (.of_push rfl rfl rfl rfl rfl)) (Nat.le_refl _) rfl

omit [RandomSource ρ] in
theorem Turn.spends_vanish :
    t.Spends 1 ({ t.log (.began .vanish) with removed := true }.leave .vanish false none) := by
  have hleave : (t.log (.began .vanish)).Accounts
      ({ t.log (.began .vanish) with removed := true }.leave .vanish false none)
      [.ended .vanish false none] := .of_push rfl rfl rfl rfl rfl
  exact .of_began (.refl _) hleave (Nat.zero_le _) rfl

end Leaves

/-! ## All turns -/

variable {φ ρ α : Type}

/-- One leaf may have its turn without an iteration, but none in a loop. -/
def Contract.spends : Contract φ ρ α where
  sequence _ _ t o := t.Spends 1 o.turn
  step _ _ t o := t.Spends 1 o.turn
  rounds _ _ t o := t.Spends 0 o.turn

variable [RandomSource ρ] [BulletFactory φ α]

theorem Contract.spends_kept (stage : Stage) :
    (spends (φ := φ) (ρ := ρ) (α := α)).Kept stage where
  done _ := .refl 1 _
  scopeFails _ hr := (Turn.Spends.refl 1 _).prepend (.of_resolve hr)
  current {_ s _ scope isNew _ _ o} _ hr _ ho := by
    show Turn.Spends 1 _ ((s.withScope scope isNew).settle o).turn
    rw [Sequence.turn_settle]
    exact ho.prepend (.of_resolve hr)
  nested ho := ho
  fire params f t := f.spends_dispatch stage params t
  mutation params m t := m.spends_dispatch stage params t
  wait params w t := w.spends_dispatch stage params t
  vanish _ _ t := t.spends_vanish
  countFails _ hr := (Turn.Spends.refl 1 _).prepend (.of_eval hr)
  entered _ hr ho := (ho.mono (Nat.zero_le 1)).prepend (.of_eval hr)
  resumed _ ho := ho.mono (Nat.zero_le 1)
  ended _ _ := .refl 0 _
  exhausted _ _ _ := Turn.spends_exhaust _
  fails _ _ hb ho _ := ho.round hb
  yields _ _ hb ho _ _ := ho.round hb
  again _ _ hb ho _ _ hr := (ho.round hb).trans hr

/-- Every turn accounts for the iterations it used up, and gives one leaf a turn for each of them, or
only one. -/
theorem Sequence.advance_spends (stage : Stage) (params : Params) (s : Sequence Step)
    (t : Turn φ ρ α) : t.Spends 1 (s.advance stage params t).turn :=
  (Contract.spends_kept stage).advance params s t

namespace LoopStep

/-- The turn of a loop that was entered. -/
def rounds (stage : Stage) (params : Params) (l : LoopStep Step) (t : Turn φ ρ α) :
    Outcome (LoopStep Step) (Turn φ ρ α) :=
  l.iterate (fun outer s t => s.advance stage outer t) params t.budget t

/-- A loop is entered first if it was not, and then has its rounds. -/
theorem drain_eq (stage : Stage) (params : Params) (l : LoopStep Step) (t : Turn φ ρ α) :
    l.drain (fun outer s t => s.advance stage outer t) stage params t =
      match l.target with
      | some _ => l.rounds stage params t
      | none =>
        match t.eval stage params l.times with
        | (.error e, t) => ⟨l, t, some (.evaluation e)⟩
        | (.ok times, t) => { l with target := some times.count.toNat }.rounds stage params t := rfl

/-- A round leaves fewer iterations than there were. -/
theorem budget_round (stage : Stage) (params : Params) (s : Sequence Step) {t : Turn φ ρ α}
    (hb : t.budget ≠ 0) : (s.advance stage params t.spend).turn.budget < t.budget := by
  have hle : (s.advance stage params t.spend).turn.budget ≤ t.spend.budget :=
    (Sequence.advance_tame stage params s t.spend).2
  rw [Turn.budget_spend] at hle
  omega

/-- The rounds of a loop, one after the other. -/
theorem rounds_eq (stage : Stage) (params : Params) (l : LoopStep Step) (t : Turn φ ρ α) :
    l.rounds stage params t =
      if l.isDone then ⟨l, t, none⟩
      else if t.budget = 0 then ⟨l, t.exhaust, none⟩
      else
        let o := l.body.advance stage params t.spend
        let l' : LoopStep Step := { l with body := o.step }
        match o.error with
        | some e => ⟨l', o.turn, some e⟩
        | none =>
          if o.turn.mustYield then ⟨l'.settle, o.turn, none⟩
          else l'.settle.rounds stage params o.turn := by
  rw [rounds]
  cases hb : t.budget with
  | zero => rw [iterate, if_pos rfl]
  | succ n =>
    rw [iterate, if_neg (Nat.succ_ne_zero n)]
    have hlt := budget_round stage params l.body (t := t) (by omega)
    simp only [hb, Nat.succ_ne_zero, if_false]
    rw [iterate_rounds (Sequence.advance_tame stage) params _ _ (by omega) (Nat.le_refl _)]
    rfl

end LoopStep

end Barrage
