import Barrage.Step.BuildLemmas

/-!
# Patterns of some kinds of steps

* `Node.only`, `Document.only`: a node, or every action of a document, needs steps of some kinds only.
  What fired bullets do is not looked at.
* `Step.only`: a step has steps of some kinds only in it. Sequences may always be there.
* `Step.only_blank`: what a step has done does not matter.
* `Builder.only_action`: an action of a document that needs some kinds only has no others.
-/

namespace Barrage

/-! ## Nodes -/

mutual

/-- Whether a node needs steps of the allowed kinds only. -/
def Node.only (allowed : StepKind → Bool) : Node → Bool
  | .action a => a.only allowed
  | .actionRef _ => true
  | .loop _ body => allowed .loop && body.only allowed
  | .fire _ | .fireRef _ => allowed .fire
  | .changeDirection _ _ | .changeSpeed _ _ | .accel _ _ _ => allowed .mutation
  | .wait _ => allowed .wait
  | .vanish => allowed .vanish
termination_by structural n => n

/-- Whether the nodes of an action need steps of the allowed kinds only. -/
def Action.only (allowed : StepKind → Bool) : Action Node → Bool
  | ⟨_, children⟩ => Node.allOnly allowed children
termination_by structural a => a

/-- Whether the body of a loop needs steps of the allowed kinds only. -/
def LoopBody.only (allowed : StepKind → Bool) : LoopBody Node → Bool
  | .action a => a.only allowed
  | .reference _ => true
termination_by structural b => b

/-- Whether several nodes need steps of the allowed kinds only. -/
def Node.allOnly (allowed : StepKind → Bool) : List Node → Bool
  | [] => true
  | n :: rest => n.only allowed && Node.allOnly allowed rest
termination_by structural l => l

end

/-- Whether all labelled actions need steps of the allowed kinds only. -/
def Document.only (allowed : StepKind → Bool) (doc : Document) : Bool :=
  doc.actions.all fun entry => entry.2.only allowed

/-! ## Steps -/

mutual

/-- Whether a step has steps of the allowed kinds only in it. -/
def Step.only (allowed : StepKind → Bool) : Step → Bool
  | .sequence s => s.only allowed
  | .loop l => allowed .loop && l.only allowed
  | .fire _ => allowed .fire
  | .mutation _ => allowed .mutation
  | .wait _ => allowed .wait
  | .vanish _ => allowed .vanish
termination_by structural s => s

/-- Whether a sequence has steps of the allowed kinds only in it. -/
def Sequence.only (allowed : StepKind → Bool) : Sequence Step → Bool
  | ⟨_, _, children, _⟩ => Step.allOnly allowed children
termination_by structural s => s

/-- Whether the body of a loop has steps of the allowed kinds only in it. -/
def LoopStep.only (allowed : StepKind → Bool) : LoopStep Step → Bool
  | ⟨_, _, _, body⟩ => body.only allowed
termination_by structural l => l

/-- Whether several steps have steps of the allowed kinds only in them. -/
def Step.allOnly (allowed : StepKind → Bool) : List Step → Bool
  | [] => true
  | s :: rest => s.only allowed && Step.allOnly allowed rest
termination_by structural l => l

end

variable {allowed : StepKind → Bool}

theorem Node.allOnly_iff {l : List Node} :
    Node.allOnly allowed l = true ↔ ∀ n ∈ l, n.only allowed = true := by
  induction l with
  | nil => simp [Node.allOnly]
  | cons n rest ih => simp [Node.allOnly, ih]

theorem Action.only_iff {a : Action Node} :
    a.only allowed = true ↔ ∀ n ∈ a.children, n.only allowed = true := by
  rw [← Node.allOnly_iff]
  cases a
  rfl

theorem Step.allOnly_iff {l : List Step} :
    Step.allOnly allowed l = true ↔ ∀ c ∈ l, c.only allowed = true := by
  induction l with
  | nil => simp [Step.allOnly]
  | cons c rest ih => simp [Step.allOnly, ih]

theorem Sequence.only_iff {s : Sequence Step} :
    s.only allowed = true ↔ ∀ c ∈ s.children, c.only allowed = true := by
  rw [← Step.allOnly_iff]
  cases s
  rfl

theorem LoopStep.only_eq (l : LoopStep Step) : l.only allowed = l.body.only allowed := by
  cases l
  rfl

theorem LoopStep.only_body {l : LoopStep Step} (h : (Step.loop l).only allowed = true) :
    l.body.only allowed = true := by
  rw [Step.only, Bool.and_eq_true, LoopStep.only_eq] at h
  exact h.2

/-- What a step has done does not matter to the kinds of steps in it. -/
theorem Step.only_blank (s : Step) : s.blank.only allowed = s.only allowed := by
  induction s using Step.induction with
  | sequence s ih =>
    show s.blank.only allowed = s.only allowed
    rw [Bool.eq_iff_iff, Sequence.only_iff, Sequence.only_iff, Sequence.blank_eq]
    simp only [List.forall_mem_map]
    exact forall₂_congr fun c hc => by rw [ih c hc]
  | loop l ih =>
    have hbody : l.body.blank.only allowed = l.body.only allowed := ih
    simp only [Step.blank_loop, Step.only, LoopStep.only_eq, hbody]
  | fire _ | mutation _ | wait _ | vanish _ => rfl

theorem Sequence.only_congr {s s' : Sequence Step} (h : s'.blank = s.blank) :
    s'.only allowed = s.only allowed := by
  have hblank (s : Sequence Step) : s.blank.only allowed = s.only allowed :=
    Step.only_blank (.sequence s)
  rw [← hblank s', h, hblank s]

/-- A step that has steps of some kinds only has steps of more kinds only. -/
theorem Step.only_mono {allowed' : StepKind → Bool} (hle : ∀ k, allowed k = true → allowed' k = true)
    {s : Step} (h : s.only allowed = true) : s.only allowed' = true := by
  induction s using Step.induction with
  | sequence s ih =>
    exact Sequence.only_iff.2 fun c hc => ih c hc (Sequence.only_iff.1 h c hc)
  | loop l ih =>
    obtain ⟨hl, hb⟩ := Bool.and_eq_true_iff.1 h
    rw [LoopStep.only_eq] at hb
    refine Bool.and_eq_true_iff.2 ⟨hle _ hl, ?_⟩
    rw [LoopStep.only_eq]
    exact ih hb
  | fire _ | mutation _ | wait _ | vanish _ => exact hle _ h

/-! ## Building -/

/-- A labelled action of a document needs what the document needs. -/
theorem Document.only_resolveAction {doc : Document} (h : doc.only allowed = true) {label : String}
    {a : Action Node} (ha : doc.resolveAction label = .ok a) : a.only allowed = true := by
  rw [resolveAction, Table.resolve] at ha
  split at ha
  · next a' hl =>
    cases ha
    obtain ⟨l₁, l₂, hmem, -⟩ := List.lookup_eq_some_iff.1 hl
    refine List.all_eq_true.1 h (label, a) ?_
    simp [hmem]
  · cases ha

namespace Builder

variable {b : Builder} {enter : Action Node → Scope → Except StepError (Sequence Step)}

theorem only_follow (hb : b.document.only allowed = true)
    (he : ∀ a scope s, a.only allowed = true → enter a scope = .ok s → s.only allowed = true)
    {r : Reference} {s : Sequence Step} (h : b.follow enter r = .ok s) : s.only allowed = true := by
  rw [follow] at h
  split at h
  · next a ha => exact he _ _ _ (Document.only_resolveAction hb ha) h
  · cases h

theorem only_stepBy (hb : b.document.only allowed = true)
    (he : ∀ a scope s, a.only allowed = true → enter a scope = .ok s → s.only allowed = true)
    {n : Node} {step : Step} (hn : n.only allowed = true) (h : b.stepBy enter n = .ok step) :
    step.only allowed = true := by
  unfold stepBy at h
  split at h
  · obtain ⟨s, hs, rfl⟩ := Except.map_ok h
    exact he _ _ _ hn hs
  · obtain ⟨s, hs, rfl⟩ := Except.map_ok h
    exact only_follow hb he hs
  · obtain ⟨s, hs, rfl⟩ := Except.map_ok h
    obtain ⟨hl, ha⟩ := Bool.and_eq_true_iff.1 hn
    exact Bool.and_eq_true_iff.2 ⟨hl, he _ _ _ ha hs⟩
  · obtain ⟨s, hs, rfl⟩ := Except.map_ok h
    obtain ⟨hl, -⟩ := Bool.and_eq_true_iff.1 hn
    exact Bool.and_eq_true_iff.2 ⟨hl, only_follow hb he hs⟩
  · obtain ⟨f, hf, rfl⟩ := Except.map_ok h
    exact hn
  · split at h
    · obtain ⟨f, hf, rfl⟩ := Except.map_ok h
      exact hn
    · cases h
  · cases h
    exact hn
  · cases h
    exact hn
  · cases h
  · cases h
    exact hn
  · cases h
    exact hn

theorem only_enter (hb : b.document.only allowed = true) {levels depth : Nat} {a : Action Node}
    {scope : Scope} {s : Sequence Step} (ha : a.only allowed = true)
    (h : b.enter levels depth a scope = .ok s) : s.only allowed = true := by
  induction levels generalizing depth a scope s with
  | zero => cases h
  | succ levels ih =>
    obtain ⟨children, rfl, hc⟩ := enter_ok h
    refine Sequence.only_iff.2 fun c hmem => ?_
    obtain ⟨n, hn, hstep⟩ := exists_of_mem_forall₂ hc hmem
    exact only_stepBy hb (fun a scope s => @ih (depth + 1) a scope s)
      (Action.only_iff.1 ha n hn) hstep

/-- An action of a document that needs some kinds of steps only has no others. -/
theorem only_action (hb : b.document.only allowed = true) {a : Action Node}
    (ha : a.only allowed = true) {s : Sequence Step} (h : b.action a = .ok s) :
    s.only allowed = true :=
  only_enter hb ha h

end Builder

end Barrage
