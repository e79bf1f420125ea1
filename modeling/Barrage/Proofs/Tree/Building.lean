import Mathlib.Data.List.Lex
import Barrage.Step.Expansion

/-!
# What can be built

* `Builder.Flawless`, `Builder.FirstFlaw`: nothing is wrong in the expansion of a node, or the first
  thing that is, each node before what it opens and children in order.
* `Builder.stepBy_expands`: building a step gives one or the other. `FirstFlaw.unique` and
  `FirstFlaw.not_flawless` make that exact.
* `Node.opens?_again`: an action that is opened again inside itself is so at every depth.
* `action_built_iff`: which actions can be built, into what, and with which error the others fail.
-/

namespace Barrage

namespace Builder

variable {b : Builder} {depth : Nat} {n : Node} {e e' : StepError}

/-- Nothing is wrong in the expansion of a node that is met in `depth` actions. -/
def Flawless (b : Builder) (depth : Nat) (n : Node) : Prop :=
  ∀ place m, n.at? b.document place = some m → m.flaw? b (depth + place.length) = none

/-- What is wrong first in the expansion of a node that is met in `depth` actions. Places are in
lexicographic order, so a node comes before those in it and each of those before its next sibling. -/
def FirstFlaw (b : Builder) (depth : Nat) (n : Node) (e : StepError) : Prop :=
  ∃ place m, n.at? b.document place = some m ∧ m.flaw? b (depth + place.length) = some e ∧
    ∀ place' < place, ∀ m', n.at? b.document place' = some m' →
      m'.flaw? b (depth + place'.length) = none

theorem FirstFlaw.not_flawless (h : b.FirstFlaw depth n e) : ¬ b.Flawless depth n := by
  obtain ⟨place, m, hm, he, -⟩ := h
  intro hf
  rw [hf place m hm] at he
  cases he

theorem FirstFlaw.unique (h : b.FirstFlaw depth n e) (h' : b.FirstFlaw depth n e') : e = e' := by
  obtain ⟨place, m, hm, he, hbefore⟩ := h
  obtain ⟨place', m', hm', he', hbefore'⟩ := h'
  rcases lt_trichotomy place place' with hlt | rfl | hlt
  · rw [hbefore' place hlt m hm] at he
    cases he
  · cases hm.symm.trans hm'
    exact Option.some.inj (he.symm.trans he')
  · rw [hbefore place' hlt m' hm'] at he'
    cases he'

/-- A place comes before the places in it. -/
theorem lt_append_cons (place : List Nat) (i : Nat) (rest : List Nat) :
    place < place ++ i :: rest := by
  induction place with
  | nil => exact List.nil_lt_cons i rest
  | cons j place ih => exact List.cons_lt_cons_iff.2 (.inr ⟨rfl, ih⟩)

/-- A node's own flaw is the first. -/
theorem FirstFlaw.here (h : n.flaw? b depth = some e) : b.FirstFlaw depth n e :=
  ⟨[], n, rfl, h, fun place hlt => absurd hlt (List.not_lt_nil place)⟩

/-- A node that opens nothing is flawless if it is so itself. -/
theorem Flawless.leaf (h : n.flaw? b depth = none) (ha : n.opens? b.document = none) :
    b.Flawless depth n := by
  intro place m hm
  cases place with
  | nil =>
    cases hm
    exact h
  | cons i place =>
    rw [Node.at?, ha] at hm
    cases hm

section Opens

variable {a : Action Node} (h : n.flaw? b depth = none) (ha : n.opens? b.document = some a)

include h ha

/-- A node is flawless if it is so itself and the children of the action that it opens are. -/
theorem Flawless.of_children (hc : ∀ c ∈ a.children, b.Flawless (depth + 1) c) :
    b.Flawless depth n := by
  intro place m hm
  cases place with
  | nil =>
    cases hm
    exact h
  | cons i place =>
    simp only [Node.at?, ha, Option.bind_some, Option.bind_eq_some_iff] at hm
    obtain ⟨c, hi, hm⟩ := hm
    have := hc c (List.mem_of_getElem? hi) place m hm
    rwa [List.length_cons, Nat.add_left_comm, Nat.add_comm place.length]

/-- The first flaw of a child is that of the node, if the children before it are flawless. -/
theorem FirstFlaw.of_child {before after : List Node} {c : Node}
    (hsplit : a.children = before ++ c :: after) (hbefore : ∀ c ∈ before, b.Flawless (depth + 1) c)
    (hc : b.FirstFlaw (depth + 1) c e) : b.FirstFlaw depth n e := by
  obtain ⟨place, m, hm, he, hfirst⟩ := hc
  have hlength (p : List Nat) (i : Nat) : depth + (i :: p).length = depth + 1 + p.length := by
    rw [List.length_cons]
    omega
  refine ⟨before.length :: place, m, ?_, ?_, ?_⟩
  · simp [Node.at?, ha, hsplit, hm]
  · rwa [hlength]
  · intro place' hlt m' hm'
    cases place' with
    | nil =>
      cases hm'
      exact h
    | cons i place' =>
      rw [hlength]
      simp only [Node.at?, ha, Option.bind_some, Option.bind_eq_some_iff, hsplit] at hm'
      obtain ⟨c', hi, hm'⟩ := hm'
      -- A place before is in one of the children before, or in the same child before its own flaw.
      rcases List.cons_lt_cons_iff.1 hlt with hi' | ⟨rfl, hlt'⟩
      · rw [List.getElem?_append_left hi'] at hi
        exact hbefore c' (List.mem_of_getElem? hi) place' m' hm'
      · rw [List.getElem?_append_right (Nat.le_refl _), Nat.sub_self] at hi
        cases hi
        exact hfirst place' hlt' m' hm'

end Opens

/-- A step is built if nothing is wrong in the expansion of its node, and shows that; or what is wrong
first is the error. By induction on how much deeper actions may nest, which is all that the recursion
through references has to stop it. -/
theorem stepBy_expands (b : Builder) {levels depth : Nat} (hd : levels + depth = b.maxDepth)
    (n : Node) :
    Except.Meets (fun s => b.Flawless depth n ∧ s.Shows b.document n) (b.FirstFlaw depth n)
      (b.stepBy (b.enter levels depth) n) := by
  induction levels generalizing depth n with
  | zero =>
    rcases b.stepBy_cases (b.enter 0 depth) n with
      ⟨e, he, hr⟩ | ⟨he, ha, s, hr, hk, hc⟩ | ⟨he, a, scope, wrap, ha, hr, -⟩ <;> rw [hr]
    · exact .here (by rw [Node.flaw?, he])
    · exact ⟨.leaf (by rw [Node.flaw?, he, ha]) ha, Step.shows_of_leaf ha hk hc⟩
    · -- no level is left, so that an action is opened is what is wrong
      exact .here (by simp [Node.flaw?, he, ha, ← hd])
  | succ levels ih =>
    rcases b.stepBy_cases (b.enter (levels + 1) depth) n with
      ⟨e, he, hr⟩ | ⟨he, ha, s, hr, hk, hc⟩ | ⟨he, a, scope, wrap, ha, hr, hw⟩ <;> rw [hr]
    · exact .here (by rw [Node.flaw?, he])
    · exact ⟨.leaf (by rw [Node.flaw?, he, ha]) ha, Step.shows_of_leaf ha hk hc⟩
    · have hflaw : n.flaw? b depth = none := by
        have : depth < b.maxDepth := by omega
        simp [Node.flaw?, he, ha, this]
      have hchildren := Except.Meets.mapM_first fun c (_ : c ∈ a.children) =>
        ih (show levels + (depth + 1) = b.maxDepth by omega) c
      rw [enter]
      cases hm : a.children.mapM (b.stepBy (b.enter levels (depth + 1))) with
      | error e =>
        obtain ⟨before, c, after, steps, hsplit, hbefore, he⟩ := hchildren.error hm
        exact .of_child hflaw ha hsplit ((List.forall₂_and_left _ _).1 hbefore).1 he
      | ok steps =>
        obtain ⟨hall, hshows⟩ := (List.forall₂_and_left _ _).1 (hchildren.ok hm)
        obtain ⟨hk, hc⟩ := hw ⟨a.label, scope, steps, 0⟩
        exact ⟨.of_children hflaw ha hall, Step.shows_of_children ha hk (hc ▸ hshows)⟩

/-- The same of the sequence of an action that is entered directly. -/
theorem action_expands (b : Builder) (a : Action Node) :
    Except.Meets
      (fun s => b.Flawless 0 (.action a) ∧ (Step.sequence s).Shows b.document (.action a))
      (b.FirstFlaw 0 (.action a)) (b.action a) := by
  have h := b.stepBy_expands (Nat.add_zero _) (.action a)
  change Except.Meets _ _ (Step.sequence <$> b.action a) at h
  cases hr : b.action a with
  | error e => exact h.error (congrArg (Step.sequence <$> ·) hr)
  | ok s => exact h.ok (congrArg (Step.sequence <$> ·) hr)

section Exact

variable {β : Type} {good : β → Prop} {r : Except StepError β}
  (h : Except.Meets (fun x => b.Flawless depth n ∧ good x) (b.FirstFlaw depth n) r)

include h

theorem ok_iff_flawless : (∃ x, r = .ok x) ↔ b.Flawless depth n := by
  constructor
  · rintro ⟨x, hr⟩
    exact (h.ok hr).1
  · intro hf
    cases hr : r with
    | error e => exact absurd hf (h.error hr).not_flawless
    | ok x => exact ⟨x, rfl⟩

theorem error_iff_firstFlaw : r = .error e ↔ b.FirstFlaw depth n e := by
  constructor
  · exact h.error
  · intro he
    cases hr : r with
    | error e' => rw [(h.error hr).unique he]
    | ok x => exact absurd (h.ok hr).1 he.not_flawless

end Exact

/-- With actions allowed at all, a bullet definition is built like the action of its nodes. -/
theorem bullet_eq_action (h : 1 ≤ b.maxDepth) (d : BulletDef Node) :
    b.bullet d = b.action ⟨d.label, d.actions⟩ := by
  obtain ⟨levels, hl⟩ := Nat.exists_eq_add_of_le' h
  rw [bullet, action, hl]
  rfl

/-- An action is first found to be too deep right below the depth that is allowed. -/
theorem FirstFlaw.tooDeep {label : Option String} {reached : Nat}
    (h : b.FirstFlaw 0 n (.nestingTooDeep label reached)) :
    reached = b.maxDepth + 1 ∧ ∃ place m a, n.at? b.document place = some m ∧
      place.length = b.maxDepth ∧ m.opens? b.document = some a ∧ a.label = label := by
  obtain ⟨place, m, hm, he, hbefore⟩ := h
  rw [Nat.zero_add] at he
  obtain he | ⟨-, hle, a, ha, he⟩ := Node.flaw?_cases he
  · exact absurd he Node.defect?_ne_tooDeep
  cases he
  obtain ⟨top, rest, rfl, hlength⟩ :
      ∃ top rest, place = top ++ rest ∧ top.length = b.maxDepth :=
    ⟨place.take b.maxDepth, place.drop b.maxDepth, (List.take_append_drop ..).symm,
      List.length_take_of_le hle⟩
  cases rest with
  | nil =>
    rw [List.append_nil] at hm ⊢
    exact ⟨by rw [hlength], top, m, a, hm, hlength, ha, rfl⟩
  | cons i rest =>
    -- the node above it opens an action that lies too deep, which comes first
    rw [Node.at?_append, Option.bind_eq_some_iff] at hm
    obtain ⟨m', hm', hm⟩ := hm
    obtain ⟨a', ha'⟩ := Node.opens?_of_at? hm
    have hflaw := hbefore top (lt_append_cons top i rest) m' hm'
    rw [Node.flaw?_eq_none_iff, Nat.zero_add, hlength] at hflaw
    exact absurd (hflaw.2 a' ha') (Nat.lt_irrefl _)

end Builder

/-- An action that is opened again inside itself is opened at every depth. -/
theorem Node.opens?_again {doc : Document} {n m : Node} {i : Nat} {place : List Nat}
    (hm : n.at? doc (i :: place) = some m) (ha : m.opens? doc = n.opens? doc) (depth : Nat) :
    ∃ place m, depth ≤ place.length ∧ n.at? doc place = some m ∧ m.opens? doc = n.opens? doc := by
  induction depth with
  | zero => exact ⟨[], n, Nat.zero_le _, rfl, rfl⟩
  | succ depth ih =>
    obtain ⟨place', m', hle, hm', ha'⟩ := ih
    refine ⟨place' ++ i :: place, m, by rw [List.length_append, List.length_cons]; omega, ?_, ha⟩
    rw [Node.at?_append, hm', Option.bind_some, ← hm, Node.at?, Node.at?, ha']

namespace Builder

/-- Where an action is opened again inside itself, something is wrong. -/
theorem not_flawless_of_again {b : Builder} {n m m' : Node} {i : Nat} {place place' : List Nat}
    (hm : n.at? b.document place = some m) (hm' : m.at? b.document (i :: place') = some m')
    (ha : m'.opens? b.document = m.opens? b.document) : ¬ b.Flawless 0 n := by
  intro hf
  obtain ⟨a, hopens⟩ := Node.opens?_of_at? hm'
  obtain ⟨deep, m'', hle, hdeep, hagain⟩ := Node.opens?_again hm' ha b.maxDepth
  have hflaw := hf (place ++ deep) m'' (by rw [Node.at?_append, hm]; exact hdeep)
  rw [Node.flaw?_eq_none_iff, Nat.zero_add, List.length_append] at hflaw
  have hlt := hflaw.2 a (hagain.trans hopens)
  omega

/-- What is wrong where no node has a defect is that an action lies too deep. -/
theorem FirstFlaw.eq_tooDeep {b : Builder} {n : Node} {e : StepError} (h : b.FirstFlaw 0 n e)
    (hfine : ∀ place m, n.at? b.document place = some m → m.defect? b.document = none) :
    ∃ label, e = .nestingTooDeep label (b.maxDepth + 1) := by
  obtain ⟨place, m, hm, hflaw, -⟩ := id h
  rcases Node.flaw?_cases hflaw with hd | ⟨-, -, a, -, rfl⟩
  · rw [hfine place m hm] at hd
    cases hd
  · exact ⟨a.label, by rw [h.tooDeep.1]⟩

end Builder

/-- An action can be built exactly if, in all that it expands to through actions, references and loops,
each label that is looked up names a definition of its kind, no node is without a step and no action
lies deeper than is allowed, the action itself being at depth one. What is built then has a step of
the right kind for each node, in order, and no other. Otherwise the error is what is wrong first, in
depth-first order; if that is an action that lies too deep, it lies one deeper than is allowed. So an
action that comes back to itself inside is never built, whichever way it does; if nothing else is wrong
it is too deep. The same holds of a node that is built on its own, and a bullet definition is built
like an action. -/
theorem action_built_iff (b : Builder) (a : Action Node) :
    ((∃ s, b.action a = .ok s) ↔
      ∀ place n, (Node.action a).at? b.document place = some n →
        (∀ m ∈ n.needs b.document, b.document.defines m = true) ∧ n.kind ≠ .accel ∧
          ∀ a', n.opens? b.document = some a' → place.length + 1 ≤ b.maxDepth) ∧
    (∀ s, b.action a = .ok s → (Step.sequence s).Shows b.document (.action a)) ∧
    (∀ e, b.action a = .error e ↔ b.FirstFlaw 0 (.action a) e) ∧
    (∀ label depth, b.action a = .error (.nestingTooDeep label depth) → depth = b.maxDepth + 1 ∧
      ∃ place n a', (Node.action a).at? b.document place = some n ∧ place.length = b.maxDepth ∧
        n.opens? b.document = some a' ∧ a'.label = label) ∧
    (∀ place n i place' m, (Node.action a).at? b.document place = some n →
      n.at? b.document (i :: place') = some m → m.opens? b.document = n.opens? b.document →
      ∃ e, b.action a = .error e ∧
        ((∀ place n, (Node.action a).at? b.document place = some n → n.defect? b.document = none) →
          ∃ label, e = .nestingTooDeep label (b.maxDepth + 1))) ∧
    (∀ n, ((∃ s, b.node n = .ok s) ↔ b.Flawless 0 n) ∧
      (∀ s, b.node n = .ok s → s.Shows b.document n) ∧
      ∀ e, b.node n = .error e ↔ b.FirstFlaw 0 n e) ∧
    (1 ≤ b.maxDepth → ∀ d, b.bullet d = b.action ⟨d.label, d.actions⟩) := by
  have hmeets := b.action_expands a
  refine ⟨?_, fun s hs => (hmeets.ok hs).2, fun e => Builder.error_iff_firstFlaw hmeets, ?_, ?_,
    fun n => ?_, Builder.bullet_eq_action⟩
  · rw [Builder.ok_iff_flawless hmeets]
    simp only [Builder.Flawless, Node.flaw?_eq_none_iff, Node.defect?_eq_none_iff, Nat.zero_add,
      and_assoc, Nat.lt_iff_add_one_le]
  · exact fun label depth he => (hmeets.error he).tooDeep
  · intro place n i place' m hn hm ha
    have hnot := Builder.not_flawless_of_again hn hm ha
    cases he : b.action a with
    | ok s => exact absurd (hmeets.ok he).1 hnot
    | error e => exact ⟨e, rfl, (hmeets.error he).eq_tooDeep⟩
  · have hmeets := b.stepBy_expands (Nat.add_zero _) n
    exact ⟨Builder.ok_iff_flawless hmeets, fun s hs => (hmeets.ok hs).2,
      fun e => Builder.error_iff_firstFlaw hmeets⟩

/-- An action that refers to itself. -/
def selfReferring : Action Node := ⟨some "loop", [.actionRef ⟨"loop", []⟩]⟩

/-- The pattern of which it is the only action, with eight levels. -/
def selfReferringBuilder : Builder := ⟨⟨[("loop", selfReferring)], [], []⟩, ⟨1, 8, 1⟩⟩

/-- Its expansion has no defect, as far as it goes. -/
theorem defect?_of_self_referring {n m : Node} {place : List Nat}
    (ha : n.opens? selfReferringBuilder.document = some selfReferring)
    (hd : n.defect? selfReferringBuilder.document = none)
    (hm : n.at? selfReferringBuilder.document place = some m) :
    m.defect? selfReferringBuilder.document = none := by
  induction place generalizing n with
  | nil =>
    cases hm
    exact hd
  | cons i place ih =>
    rw [Node.at?, ha] at hm
    cases i with
    | zero => exact ih (n := .actionRef ⟨"loop", []⟩) rfl rfl hm
    | succ i => cases hm

/-- With eight levels, an action that refers to itself is too deep at the ninth, also as the action of
a bullet definition. -/
theorem action_built_iff_self_referring :
    let b := selfReferringBuilder
    1 ≤ b.maxDepth ∧ (∃ label, b.action selfReferring = .error (.nestingTooDeep label 9)) ∧
      (∃ place n a', (Node.action selfReferring).at? b.document place = some n ∧ place.length = 8 ∧
        n.opens? b.document = some a' ∧ a'.label = some "loop") ∧
      b.bullet ⟨some "loop", none, none, selfReferring.children⟩ = b.action selfReferring := by
  intro b
  have hlevels : 1 ≤ b.maxDepth := by decide
  obtain ⟨-, -, -, hdeep, hcycle, -, hbullet⟩ := action_built_iff b selfReferring
  obtain ⟨e, he, htooDeep⟩ :=
    hcycle [] (.action selfReferring) 0 [] (.actionRef ⟨"loop", []⟩) rfl rfl rfl
  obtain ⟨label, rfl⟩ := htooDeep fun _ _ hn => defect?_of_self_referring rfl rfl hn
  exact ⟨hlevels, ⟨label, he⟩, (hdeep (some "loop") 9 rfl).2, hbullet hlevels _⟩

end Barrage
