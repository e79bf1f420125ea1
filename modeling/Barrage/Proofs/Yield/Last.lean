import Barrage.Turn.Contract
import Barrage.Turn.Journal

/-!
# What stops a turn comes last

A timed step that goes on, a loop without iterations and a vanish stop the whole turn. Nothing else
happens in it afterwards.

* `Turn.StopsLast`: the last event of a turn says whether it was stopped, and no event before it stops.
* `Sequence.advance_stopsLast`: every turn is like that.
-/

namespace Barrage

variable {φ ρ α : Type}

/-- A turn that started while steps could run. Either they still can, or its last event stopped it. -/
def Turn.StopsLast {σ : Type} (t : Turn φ ρ α) (o : Outcome σ (Turn φ ρ α)) : Prop :=
  t.mustYield = false → ∃ es, t.Logs o.turn es ∧
    ((o.turn.mustYield = false ∧ ∀ e ∈ es, e.stops = false) ∨
      (o.turn.mustYield = true ∧ o.error = none ∧
        ∃ before e, es = before ++ [e] ∧ e.stops = true ∧ ∀ e ∈ before, e.stops = false))

namespace Turn

variable {σ : Type} {t t' : Turn φ ρ α} {o : Outcome σ (Turn φ ρ α)} {es : List Event}

/-- A turn in which no event stops it. -/
theorem StopsLast.of_calm (hl : t.Logs o.turn es) (hy : o.turn.mustYield = t.mustYield)
    (hes : ∀ e ∈ es, e.stops = false) : t.StopsLast o :=
  fun h => ⟨es, hl, .inl ⟨hy.trans h, hes⟩⟩

/-- Events that do not stop a turn may come before it. -/
theorem StopsLast.prepend (h : t'.StopsLast o) (hl : t.Logs t' es)
    (hy : t'.mustYield = t.mustYield) (hes : ∀ e ∈ es, e.stops = false) : t.StopsLast o := by
  have happend {es' : List Event} (h' : ∀ e ∈ es', e.stops = false) :
      ∀ e ∈ es ++ es', e.stops = false := by
    intro e he
    rcases List.mem_append.1 he with he | he
    · exact hes e he
    · exact h' e he
  intro ht
  obtain ⟨es', hl', ⟨hrun, hcalm⟩ | ⟨hstop, herror, before, e, rfl, he, hcalm⟩⟩ := h (hy.trans ht)
  · exact ⟨es ++ es', hl.trans hl', .inl ⟨hrun, happend hcalm⟩⟩
  · refine ⟨es ++ (before ++ [e]), hl.trans hl', .inr ⟨hstop, herror, es ++ before, e, ?_, he, ?_⟩⟩
    · rw [List.append_assoc]
    · exact happend hcalm

theorem StopsLast.prepend_draws (h : t'.StopsLast o) (hd : t.Draws t') : t.StopsLast o := by
  obtain ⟨es, hl, hin⟩ := hd.logs
  exact h.prepend hl hd.mustYield fun e he => Event.stops_of_isInner (hin e he)

theorem stopsLast_refl (step : σ) (error : Option StepError) : t.StopsLast ⟨step, t, error⟩ :=
  .of_calm (.refl t) rfl (List.forall_mem_nil _)

/-- What comes of a turn does not matter if it has the same error. -/
theorem StopsLast.congr {σ' : Type} {o' : Outcome σ' (Turn φ ρ α)} (h : t.StopsLast o)
    (ht : o'.turn = o.turn) (he : o'.error = o.error) : t.StopsLast o' := by
  unfold StopsLast at *
  rw [ht, he]
  exact h

theorem LeafFails.stopsLast {kind : StepKind} (h : LeafFails kind t o.turn) : t.StopsLast o := by
  obtain ⟨es, hl, hin⟩ := h.events
  refine .of_calm hl h.mustYield fun e he => ?_
  rcases List.mem_cons.1 he with rfl | he
  · rfl
  · exact Event.stops_of_isInner (hin e he)

theorem LeafEnds.stopsLast {kind : StepKind} {running : Bool} {clock : Option Clock}
    (h : LeafEnds kind running clock t o.turn) (he : o.error = none) : t.StopsLast o := by
  obtain ⟨es, hl, hin⟩ := h.events
  have hy := h.mustYield
  intro ht
  have hcalm : ∀ e ∈ Event.began kind :: es, e.stops = false := by
    intro e hmem
    rcases List.mem_cons.1 hmem with rfl | hmem
    · rfl
    · exact Event.stops_of_isInner (hin e hmem)
  rw [ht, Bool.false_or] at hy
  refine ⟨_, hl, ?_⟩
  rcases hs : (Event.ended kind running clock).stops with _ | _
  · refine .inl ⟨hy.trans hs, fun e hmem => ?_⟩
    rcases List.mem_append.1 hmem with hmem | hmem
    · exact hcalm e hmem
    · rw [List.mem_singleton.1 hmem, hs]
  · exact .inr ⟨hy.trans hs, he, _, _, rfl, hs, hcalm⟩

theorem StopsLast.spend (h : t.spend.StopsLast o) : t.StopsLast o :=
  h.prepend (Turn.logs_log _ .iterated) rfl (by simp [Event.stops])

theorem stopsLast_exhaust (step : σ) : t.StopsLast ⟨step, t.exhaust, none⟩ :=
  fun _ => ⟨[.exhausted], Turn.logs_log _ _, .inr ⟨rfl, rfl, [], .exhausted, rfl, rfl, by simp⟩⟩

/-- Nothing happens after an event that stops a turn. -/
theorem StopsLast.nothing_after (h : t.StopsLast o) (ht : t.mustYield = false) {before after : List Event}
    {e : Event} (hl : t.Logs o.turn (before ++ e :: after)) (he : e.stops = true) : after = [] := by
  obtain ⟨es, hes, how⟩ := h ht
  obtain rfl := hl.unique hes
  have hmem : e ∈ before ++ e :: after := by simp
  rcases how with ⟨-, hcalm⟩ | ⟨-, -, before', e', heq, -, hcalm⟩
  · exact absurd he (by simp [hcalm e hmem])
  · by_cases hnil : after = []
    · exact hnil
    -- With events after it, it would be one of those before the last.
    have hlast : before' = before ++ e :: after.dropLast := by
      have := congrArg List.dropLast heq
      rw [List.dropLast_concat, List.dropLast_append_of_ne_nil (List.cons_ne_nil _ _),
        List.dropLast_cons_of_ne_nil hnil] at this
      exact this.symm
    exact absurd he (by simp [hcalm e (by simp [hlast])])

end Turn

/-- What stops a turn comes last in it. -/
def Contract.stopsLast : Contract φ ρ α where
  sequence _ _ t o := t.StopsLast o
  step _ _ t o := t.StopsLast o
  rounds _ _ t o := t.StopsLast o

variable [RandomSource ρ] [BulletFactory φ α]

theorem Contract.stopsLast_kept (stage : Stage) :
    (stopsLast (φ := φ) (ρ := ρ) (α := α)).Kept stage where
  done _ := Turn.stopsLast_refl _ _
  scopeFails _ hr := by
    have hd := Turn.Draws.of_resolve hr
    exact (Turn.stopsLast_refl _ _).prepend_draws hd
  current _ hr _ ho := by
    have hd := Turn.Draws.of_resolve hr
    exact (ho.prepend_draws hd).congr (Sequence.turn_settle ..) (Sequence.error_settle ..)
  nested ho := ho.congr rfl rfl
  fire params f t := by
    rcases f.logs_dispatch stage params t with ⟨_, _, _, h, hl⟩ | ⟨_, _, -, h, hl⟩ <;> rw [h]
    · exact hl.stopsLast
    · exact hl.stopsLast rfl
  mutation params m t := by
    rcases m.logs_dispatch stage params t with ⟨_, _, h, hl⟩ | ⟨_, _, _, -, h, hl⟩ <;> rw [h]
    · exact hl.stopsLast
    · exact hl.stopsLast rfl
  wait params w t := by
    rcases w.logs_dispatch stage params t with ⟨_, _, h, hl⟩ | ⟨_, _, _, -, h, hl⟩ <;> rw [h]
    · exact hl.stopsLast
    · exact hl.stopsLast rfl
  vanish _ _ t := (Turn.logs_vanish t).stopsLast rfl
  countFails _ hr := by
    have hd := Turn.Draws.of_eval hr
    exact (Turn.stopsLast_refl _ _).prepend_draws hd
  entered _ hr ho := by
    have hd := Turn.Draws.of_eval hr
    exact (ho.prepend_draws hd).congr rfl rfl
  resumed _ ho := ho.congr rfl rfl
  ended _ _ := Turn.stopsLast_refl _ _
  exhausted _ _ _ := Turn.stopsLast_exhaust _
  fails _ _ _ ho he := ho.spend.congr rfl he.symm
  yields _ _ _ ho he _ := ho.spend.congr rfl he.symm
  again {_ l t _ o o'} _ _ _ ho _ hy hr := by
    intro ht
    -- If the round had stopped the turn, there would not be another one.
    obtain ⟨es, hl, ⟨hrun, hcalm⟩ | ⟨hstop, -⟩⟩ := ho.spend ht
    · exact hr.prepend hl (hrun.trans ht.symm) hcalm ht
    · rw [hy] at hstop
      cases hstop

/-- What stops a turn comes last in it. -/
theorem Sequence.advance_stopsLast (stage : Stage) (params : Params) (s : Sequence Step)
    (t : Turn φ ρ α) : t.StopsLast (s.advance stage params t) :=
  (Contract.stopsLast_kept stage).advance params s t

end Barrage
