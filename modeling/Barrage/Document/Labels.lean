import Barrage.Document.Basic
import Barrage.Except
import Mathlib.Data.List.Pairwise

/-!
# Labels of definitions

* `WellLabelled`: every definition of a list has a label, and no two have the same.
* `LabelFault`: the first definition of a list that has no label or a label that is taken, as an error.
* `Table.addAll_ok_iff`, `Table.addAll_error_iff`: a table is made exactly of well labelled definitions,
  and otherwise the first fault is the error.
* `Answers`: looking labels up gives the definitions of a list, or says that there is none.
* `Table.answers`: a table that was made answers for the definitions it was made of, in whatever order it
  holds them.
-/

namespace Barrage

variable {τ : Type}

/-- Every definition has a label, and no two have the same. -/
structure WellLabelled (labelOf : τ → Option String) (items : List τ) : Prop where
  present : ∀ x ∈ items, ∃ label, labelOf x = some label
  distinct : items.Pairwise fun x y => labelOf x ≠ labelOf y

/-- The first definition that has no label, or the label of one before it, as an error. -/
inductive LabelFault (kind : DefinitionKind) (labelOf : τ → Option String) (items : List τ) :
    DocumentError → Prop
  | missing {before after : List τ} {x : τ} (hitems : items = before ++ x :: after)
    (hbefore : WellLabelled labelOf before) (hx : labelOf x = none) :
    LabelFault kind labelOf items (.missingLabel kind)
  | duplicate {before after : List τ} {x y : τ} {label : String}
    (hitems : items = before ++ x :: after) (hbefore : WellLabelled labelOf before)
    (hx : labelOf x = some label) (hy : y ∈ before) (hlabel : labelOf y = some label) :
    LabelFault kind labelOf items (.duplicateLabel kind label)

/-- Looking labels up gives the definitions of a list, and is otherwise an error that names the label and
the kind that was looked for. -/
def Answers (kind : DefinitionKind) (labelOf : τ → Option String) (items : List τ)
    (resolve : String → Except DocumentError τ) : Prop :=
  ∀ label,
    (∀ x, resolve label = .ok x ↔ x ∈ items ∧ labelOf x = some label) ∧
    ∀ e, resolve label = .error e ↔ e = .notFound kind label ∧ ∀ x ∈ items, labelOf x ≠ some label

section

variable {kind : DefinitionKind} {labelOf : τ → Option String} {items : List τ}

theorem wellLabelled_nil : WellLabelled labelOf [] := ⟨by simp, .nil⟩

theorem wellLabelled_concat {x : τ} : WellLabelled labelOf (items ++ [x]) ↔
    WellLabelled labelOf items ∧
      ∃ label, labelOf x = some label ∧ ∀ y ∈ items, labelOf y ≠ some label := by
  constructor
  · rintro ⟨hpresent, hdistinct⟩
    obtain ⟨hitems, -, hnew⟩ := List.pairwise_append.1 hdistinct
    obtain ⟨label, hx⟩ := hpresent x (by simp)
    refine ⟨⟨fun y hy => hpresent y (by simp [hy]), hitems⟩, label, hx, fun y hy => ?_⟩
    exact hx ▸ hnew y hy x (by simp)
  · rintro ⟨⟨hpresent, hdistinct⟩, label, hx, hnew⟩
    constructor
    · intro y hy
      rcases List.mem_append.1 hy with hy | hy
      · exact hpresent y hy
      · exact ⟨label, List.mem_singleton.1 hy ▸ hx⟩
    · refine List.pairwise_append.2 ⟨hdistinct, List.pairwise_singleton _ x, fun y hy z hz => ?_⟩
      rw [List.mem_singleton.1 hz, hx]
      exact hnew y hy

/-- The definition with a label is the only one. -/
theorem WellLabelled.unique (h : WellLabelled labelOf items) {x y : τ} {label : String}
    (hx : x ∈ items) (hxl : labelOf x = some label) (hy : y ∈ items) (hyl : labelOf y = some label) :
    x = y := by
  by_contra hne
  have : Std.Symm fun x y => labelOf x ≠ labelOf y := ⟨fun _ _ hne => hne.symm⟩
  exact h.distinct.forall hx hy hne (hxl.trans hyl.symm)

/-- Definitions with a fault are not well labelled. -/
theorem LabelFault.not_wellLabelled {e : DocumentError} (h : LabelFault kind labelOf items e) :
    ¬WellLabelled labelOf items := by
  intro hwell
  cases h with
  | @missing before after x hitems _ hx =>
    obtain ⟨label, hlabel⟩ := hwell.present x (by simp [hitems])
    exact absurd (hx.symm.trans hlabel) (Option.some_ne_none label).symm
  | duplicate hitems _ hx hy hlabel =>
    subst hitems
    exact (List.pairwise_append.1 hwell.distinct).2.2 _ hy _ List.mem_cons_self (hlabel.trans hx.symm)

end

namespace Table

variable {kind : DefinitionKind} {labelOf : τ → Option String} {items done : List τ} {table : Table τ}

/-- A table has the definitions of a list, each under its label. -/
def Lists (labelOf : τ → Option String) (items : List τ) (table : Table τ) : Prop :=
  ∀ label x, (label, x) ∈ table ↔ x ∈ items ∧ labelOf x = some label

theorem lists_nil : Lists labelOf [] [] := by
  intro label x
  simp

theorem Lists.concat (h : Lists labelOf done table) {x : τ} {label : String}
    (hx : labelOf x = some label) : Lists labelOf (done ++ [x]) (table ++ [(label, x)]) := by
  intro label' y
  simp only [List.mem_append, List.mem_singleton, Prod.mk.injEq, h label' y]
  constructor
  · rintro (⟨hy, hlabel⟩ | ⟨rfl, rfl⟩)
    · exact ⟨.inl hy, hlabel⟩
    · exact ⟨.inr rfl, hx⟩
  · rintro ⟨hy | rfl, hlabel⟩
    · exact .inl ⟨hy, hlabel⟩
    · exact .inr ⟨Option.some.inj (hlabel.symm.trans hx), rfl⟩

theorem Lists.lookup_isSome (h : Lists labelOf items table) {label : String} :
    (table.lookup label).isSome = true ↔ ∃ x ∈ items, labelOf x = some label := by
  rw [Option.isSome_iff_exists]
  constructor
  · rintro ⟨x, hx⟩
    obtain ⟨before, after, htable, -⟩ := List.lookup_eq_some_iff.1 hx
    exact ⟨x, (h label x).1 (by simp [htable])⟩
  · rintro ⟨x, hx, hlabel⟩
    refine Option.isSome_iff_exists.1 (Option.isSome_iff_ne_none.2 fun hnone => ?_)
    have := List.lookup_eq_none_iff.1 hnone _ ((h label x).2 ⟨hx, hlabel⟩)
    simp at this

/-- Looking up a label in a table that has well labelled definitions gives the one with this label. -/
theorem Lists.lookup_eq_some (h : Lists labelOf items table) (hwell : WellLabelled labelOf items)
    {label : String} {x : τ} : table.lookup label = some x ↔ x ∈ items ∧ labelOf x = some label := by
  constructor
  · intro hx
    obtain ⟨before, after, htable, -⟩ := List.lookup_eq_some_iff.1 hx
    exact (h label x).1 (by simp [htable])
  · rintro ⟨hx, hlabel⟩
    obtain ⟨y, hy⟩ := Option.isSome_iff_exists.1 (h.lookup_isSome.2 ⟨x, hx, hlabel⟩)
    obtain ⟨before, after, htable, -⟩ := List.lookup_eq_some_iff.1 hy
    obtain ⟨hymem, hylabel⟩ := (h label y).1 (by simp [htable])
    rw [hy, hwell.unique hx hlabel hymem hylabel]

/-- Something holds of an entry of a table exactly if it holds of a definition there. -/
theorem Lists.exists_iff (h : Lists labelOf items table) (hwell : WellLabelled labelOf items)
    {P : τ → Prop} : (∃ entry ∈ table, P entry.2) ↔ ∃ x ∈ items, P x := by
  constructor
  · rintro ⟨⟨label, x⟩, hmem, hx⟩
    exact ⟨x, ((h label x).1 hmem).1, hx⟩
  · rintro ⟨x, hmem, hx⟩
    obtain ⟨label, hlabel⟩ := hwell.present x hmem
    exact ⟨(label, x), (h label x).2 ⟨hmem, hlabel⟩, hx⟩

theorem Lists.answers (h : Lists labelOf items table) (hwell : WellLabelled labelOf items) :
    Answers kind labelOf items (table.resolve kind) := by
  intro label
  cases hl : table.lookup label with
  | none =>
    have hnone : ∀ x ∈ items, labelOf x ≠ some label := by
      intro x hx hlabel
      have := h.lookup_isSome.2 ⟨x, hx, hlabel⟩
      simp [hl] at this
    have hr : table.resolve kind label = .error (.notFound kind label) := by rw [resolve, hl]
    rw [hr]
    constructor
    · intro x
      constructor
      · intro hx
        cases hx
      · intro hx
        exact absurd hx.2 (hnone x hx.1)
    · intro e
      rw [Except.error.injEq, eq_comm]
      exact ⟨fun he => ⟨he, hnone⟩, fun he => he.1⟩
  | some y =>
    have hr : table.resolve kind label = .ok y := by rw [resolve, hl]
    obtain ⟨hy, hylabel⟩ := (h.lookup_eq_some hwell).1 hl
    rw [hr]
    constructor
    · intro x
      rw [← h.lookup_eq_some hwell, hl, Except.ok.injEq, Option.some.injEq]
    · intro e
      constructor
      · intro he
        cases he
      · intro he
        exact absurd hylabel (he.2 y hy)

/-! ## Making a table -/

/-- Going on with a table keeps its definitions well labelled, up to the first fault. -/
theorem addAll_meets (items : List τ) (h : Lists labelOf done table) (hwell : WellLabelled labelOf done) :
    Except.Meets
      (fun made => Lists labelOf (done ++ items) made ∧ WellLabelled labelOf (done ++ items))
      (LabelFault kind labelOf (done ++ items)) (addAll kind labelOf table items) := by
  induction items generalizing done table with
  | nil => simpa [addAll, Except.Meets] using ⟨h, hwell⟩
  | cons x rest ih =>
    rw [addAll]
    cases hx : labelOf x with
    | none => exact .missing rfl hwell hx
    | some label =>
      by_cases htaken : (table.lookup label).isSome = true
      · obtain ⟨y, hy, hlabel⟩ := h.lookup_isSome.1 htaken
        simp only [if_pos htaken]
        exact .duplicate rfl hwell hx hy hlabel
      · have hnew : WellLabelled labelOf (done ++ [x]) :=
          wellLabelled_concat.2 ⟨hwell, label, hx, fun y hy hlabel =>
            htaken (h.lookup_isSome.2 ⟨y, hy, hlabel⟩)⟩
        simp only [if_neg htaken]
        rw [List.append_cons]
        exact ih (h.concat hx) hnew

theorem addAll_append {others : List τ} : addAll kind labelOf table (items ++ others)
    = addAll kind labelOf table items >>= fun made => addAll kind labelOf made others := by
  induction items generalizing table with
  | nil => rfl
  | cons x rest ih =>
    rw [List.cons_append, addAll, addAll]
    cases labelOf x with
    | none => rfl
    | some label =>
      by_cases htaken : (table.lookup label).isSome = true
      · simp only [if_pos htaken]
        rfl
      · simp only [if_neg htaken]
        exact ih

/-- A table is made of well labelled definitions, and has them. -/
theorem lists_of_addAll (h : addAll kind labelOf [] items = .ok table) : Lists labelOf items table :=
  ((addAll_meets items lists_nil wellLabelled_nil).ok h).1

/-- A table is made exactly of well labelled definitions. -/
theorem addAll_ok_iff (kind : DefinitionKind) :
    (∃ table, addAll kind labelOf [] items = .ok table) ↔ WellLabelled labelOf items := by
  constructor
  · rintro ⟨table, h⟩
    exact ((addAll_meets items lists_nil wellLabelled_nil).ok h).2
  · intro hwell
    cases h : addAll kind labelOf [] items with
    | ok table => exact ⟨table, rfl⟩
    | error e =>
      have hfault := (addAll_meets items lists_nil wellLabelled_nil).error h
      exact absurd hwell hfault.not_wellLabelled

/-- What is not made into a table has a fault, and the error says which. -/
theorem addAll_error_iff {e : DocumentError} :
    addAll kind labelOf [] items = .error e ↔ LabelFault kind labelOf items e := by
  constructor
  · exact (addAll_meets items lists_nil wellLabelled_nil).error
  · intro h
    cases h with
    | missing hitems hbefore hx =>
      obtain ⟨made, hmade⟩ := (addAll_ok_iff kind).2 hbefore
      rw [hitems, addAll_append, hmade]
      simp [bind, Except.bind, addAll, hx]
    | duplicate hitems hbefore hx hy hlabel =>
      obtain ⟨made, hmade⟩ := (addAll_ok_iff kind).2 hbefore
      have htaken := (lists_of_addAll hmade).lookup_isSome.2 ⟨_, hy, hlabel⟩
      rw [hitems, addAll_append, hmade]
      simp [bind, Except.bind, addAll, hx, htaken]

end Table

end Barrage
