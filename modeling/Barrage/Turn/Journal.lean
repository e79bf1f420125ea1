import Barrage.Turn.Lemmas

/-!
# Journals

The journal of a turn only grows. What a leaf adds to it starts with its beginning and, unless it
fails, stops with its end.

* `Turn.Logs`: a turn went on with some events.
* `Event.stops`: no more steps may run after an event.
* `Beat`, `beats`: the turns of timed steps that a journal tells of.
* `Turn.LeafFails`, `Turn.LeafEnds`: the two ways in which the turn of a leaf comes out.
* `WaitStep.logs_dispatch` and its like: how the leaves come out.
-/

namespace Barrage

/-- Whether no more steps may run after an event. -/
def Event.stops : Event → Bool
  | ended kind running _ => kind == .vanish || running
  | exhausted => true
  | _ => false

/-- Whether an event is one between the beginning and the end of a leaf. -/
def Event.isInner : Event → Bool
  | evaluated .. | created _ | steered => true
  | _ => false

/-- A turn of a timed step that came to its end; whether the step goes on. -/
structure Beat extends Clock where
  running : Bool
deriving DecidableEq

/-- The turn of a timed step that an event tells of. -/
def Event.beat? : Event → Option Beat
  | ended _ running (some clock) => some ⟨clock, running⟩
  | _ => none

/-- The turns of timed steps that some events tell of. -/
def beats (es : List Event) : List Beat := es.filterMap Event.beat?

@[simp] theorem beats_nil : beats [] = [] := rfl

@[simp] theorem beats_append (es es' : List Event) : beats (es ++ es') = beats es ++ beats es' :=
  List.filterMap_append

theorem Event.stops_of_isInner {e : Event} (h : e.isInner = true) : e.stops = false := by
  cases e <;> first | rfl | cases h

theorem Event.beat?_of_isInner {e : Event} (h : e.isInner = true) : e.beat? = none := by
  cases e <;> first | rfl | cases h

theorem beats_of_isInner {es : List Event} (h : ∀ e ∈ es, e.isInner = true) : beats es = [] :=
  List.filterMap_eq_nil_iff.2 fun e he => Event.beat?_of_isInner (h e he)

namespace Turn

variable {φ ρ α : Type} {t t' t'' : Turn φ ρ α} {es es' : List Event}

/-- A turn went on with some events. -/
def Logs (t t' : Turn φ ρ α) (es : List Event) : Prop :=
  t'.journal.toList = t.journal.toList ++ es

theorem Logs.refl (t : Turn φ ρ α) : t.Logs t [] := (List.append_nil _).symm

theorem Logs.trans (h : t.Logs t' es) (h' : t'.Logs t'' es') : t.Logs t'' (es ++ es') := by
  unfold Logs at *
  rw [h', h, List.append_assoc]

theorem Logs.unique (h : t.Logs t' es) (h' : t.Logs t' es') : es' = es :=
  List.append_cancel_left (h'.symm.trans h)

theorem logs_log (t : Turn φ ρ α) (e : Event) : t.Logs (t.log e) [e] := Array.toList_push

theorem Draws.logs (h : t.Draws t') : ∃ es, t.Logs t' es ∧ ∀ e ∈ es, e.isInner = true := by
  obtain ⟨es, he, hm⟩ := h.journal
  refine ⟨es, he, fun e hmem => ?_⟩
  obtain ⟨f, params, rfl⟩ := hm e hmem
  rfl

theorem Draws.mustYield (h : t.Draws t') : t'.mustYield = t.mustYield := by
  rw [Turn.mustYield, h.blocked, h.removed, Turn.mustYield]

/-- A leaf that failed: the journal does not tell of its end. -/
structure LeafFails (kind : StepKind) (t t' : Turn φ ρ α) : Prop where
  events : ∃ es, t.Logs t' (.began kind :: es) ∧ ∀ e ∈ es, e.isInner = true
  budget : t'.budget = t.budget
  removed : t'.removed = t.removed
  blocked : t'.blocked = t.blocked

/-- A leaf that did what it should: its end is the last event, and it says whether more steps may
run. -/
structure LeafEnds (kind : StepKind) (running : Bool) (clock : Option Clock)
    (t t' : Turn φ ρ α) : Prop where
  events : ∃ es, t.Logs t' (.began kind :: es ++ [.ended kind running clock]) ∧
    ∀ e ∈ es, e.isInner = true
  budget : t'.budget = t.budget
  removed : t'.removed = (t.removed || kind == .vanish)
  blocked : t'.blocked = (t.blocked || running)

theorem LeafFails.mustYield {kind : StepKind} (h : LeafFails kind t t') :
    t'.mustYield = t.mustYield := by
  rw [Turn.mustYield, h.blocked, h.removed, Turn.mustYield]

theorem LeafEnds.mustYield {kind : StepKind} {running : Bool} {clock : Option Clock}
    (h : LeafEnds kind running clock t t') :
    t'.mustYield = (t.mustYield || (Event.ended kind running clock).stops) := by
  rw [Turn.mustYield, h.blocked, h.removed, Turn.mustYield, Event.stops]
  cases t.blocked <;> cases t.removed <;> cases running <;> simp

theorem Draws.leafFails {kind : StepKind} (h : (t.log (.began kind)).Draws t') :
    LeafFails kind t t' := by
  obtain ⟨es, hes, hin⟩ := h.logs
  exact ⟨⟨es, (t.logs_log _).trans hes, hin⟩, h.budget, h.removed, h.blocked⟩

/-- A leaf ends after what it did between its beginning and its end. -/
theorem LeafFails.leave {kind : StepKind} (h : LeafFails kind t t') (hk : kind ≠ .vanish)
    (running : Bool) (clock : Option Clock) :
    LeafEnds kind running clock t (t'.leave kind running clock) := by
  obtain ⟨es, hes, hin⟩ := h.events
  refine ⟨⟨es, hes.trans (Array.toList_push), hin⟩, h.budget, ?_, ?_⟩
  · rw [beq_false_of_ne hk, Bool.or_false]
    exact h.removed
  · rw [← h.blocked]
    rfl

/-- A leaf may do something between its beginning and its end. -/
theorem LeafFails.log {kind : StepKind} (h : LeafFails kind t t') (hl : t'.Logs t'' es)
    (hin : ∀ e ∈ es, e.isInner = true) (hb : t''.budget = t'.budget)
    (hr : t''.removed = t'.removed) (hk : t''.blocked = t'.blocked) : LeafFails kind t t'' := by
  obtain ⟨es', hes', hin'⟩ := h.events
  refine ⟨⟨es' ++ es, hes'.trans hl, fun e hmem => ?_⟩, hb.trans h.budget, hr.trans h.removed,
    hk.trans h.blocked⟩
  rcases List.mem_append.1 hmem with hmem | hmem
  · exact hin' e hmem
  · exact hin e hmem

end Turn

/-! ## The turns of leaves -/

section Leaves

variable {φ ρ α : Type} [RandomSource ρ] (stage : Stage) (params : Params) (t : Turn φ ρ α)

/-- A pause fails and stays as it is, or it is credited with the time of the tick once. -/
theorem WaitStep.logs_dispatch (w : WaitStep) :
    (∃ e t', w.dispatch stage params t = ⟨w, t', some (.evaluation e)⟩ ∧
      Turn.LeafFails .wait t t') ∨
    ∃ d w' t', w' = { w with duration := some d, elapsed := w.elapsed + stage.frame.delta } ∧
      w.dispatch stage params t = ⟨w', t', none⟩ ∧
      Turn.LeafEnds .wait (!w'.isDone) (some ⟨w.elapsed, d⟩) t t' := by
  rcases w.dispatch_cases stage params t with ⟨e, t', -, hd, h⟩ | ⟨d, t', w', -, hd, hw, h⟩
  · exact .inl ⟨e, t', h, hd.leafFails⟩
  · exact .inr ⟨d, w', _, hw, h, hd.leafFails.leave (by decide) _ _⟩

/-- A mutation fails and stays as it is, or it is credited with the time of the tick once. -/
theorem MutationStep.logs_dispatch (m : MutationStep) :
    (∃ e t', m.dispatch stage params t = ⟨m, t', some (.evaluation e)⟩ ∧
      Turn.LeafFails .mutation t t') ∨
    ∃ g m' t', m' = { m with glide := some g, elapsed := m.elapsed + stage.frame.delta } ∧
      m.dispatch stage params t = ⟨m', t', none⟩ ∧
      Turn.LeafEnds .mutation (!m'.isDone) (some ⟨m.elapsed, g.duration⟩) t t' := by
  rcases m.dispatch_cases stage params t with ⟨e, t', -, hd, h⟩ | ⟨g, t', m', -, hd, hm, h⟩
  · exact .inl ⟨e, t', h, hd.leafFails⟩
  · refine .inr ⟨g, m', _, hm, h, Turn.LeafFails.leave ?_ (by decide) _ _⟩
    exact hd.leafFails.log (Turn.logs_log _ .steered) (by simp [Event.isInner]) rfl rfl rfl

/-- A fire fails or is done. -/
theorem FireStep.logs_dispatch [BulletFactory φ α] (f : FireStep) :
    (∃ e t' f', f.dispatch stage params t = ⟨f', t', some (.evaluation e)⟩ ∧
      Turn.LeafFails .fire t t') ∨
    ∃ f' t', f'.fired = true ∧ f.dispatch stage params t = ⟨f', t', none⟩ ∧
      Turn.LeafEnds .fire false none t t' := by
  rcases f.dispatch_cases stage params t with ⟨e, t', f', hd, -, h⟩ |
    ⟨scope, _, _, r, t₂, -, -, hd, h⟩
  · exact .inl ⟨e, t', f', h, hd.leafFails⟩
  · refine .inr ⟨_, _, rfl, h, Turn.LeafFails.leave ?_ (by decide) _ _⟩
    exact hd.leafFails.log (Turn.logs_log _ (.created _)) (by simp [Event.isInner]) rfl rfl rfl

omit [RandomSource ρ] in
/-- A vanish ends the whole turn. -/
theorem Turn.logs_vanish :
    LeafEnds .vanish false none t
      ({ t.log (.began .vanish) with removed := true }.leave .vanish false none) := by
  refine ⟨⟨[], ?_, by simp⟩, rfl, ?_, rfl⟩
  · show ((t.journal.push _).push _).toList = _
    simp
  · show true = (t.removed || true)
    rw [Bool.or_true]

end Leaves

end Barrage
