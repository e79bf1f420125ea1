import Barrage.Runner.Reach
import Barrage.Swarm.Recorded
import Mathlib.Data.List.Nodup

/-!
# Histories of swarms

A host calls a swarm and keeps its own list of the bullets in it, from its calls and from the reports.

* `Swarm.Call`: what a host may do with a swarm; `run` is the swarm after a call.
* `Swarm.Call.Fits`: a call does not make two bullets of one id, and the patterns that it inserts are of
  some kind. `Swarm.Call.mirror`: how a host takes a call down.
* `Swarm.Mirrored`: the swarms that such calls lead to, and whose bullets their hosts take to be in them.
* `Swarm.vanishedIds`: whose patterns have vanished and whose bullets are still there.
* `Swarm.ids_tick`: whose bullets a tick leaves in a swarm.
* `Swarm.Mirrored.sound`: if no pattern had vanished when it was inserted, a host takes the right bullets
  to be in the swarm.
-/

namespace Barrage

namespace Swarm

/-- What a host may do with a swarm. -/
inductive Call (φ ρ α : Type) where
  | insert (bullet : Bullet α) (runner : Option Runner)
  | tick (frame : Frame) (factory : φ) (source : ρ)
  | remove (id : BulletId)
  | modify (id : BulletId) (f : Bullet α → Bullet α)
  | modifyAll (f : Bullet α → Bullet α)

section Calls

variable {φ ρ α : Type} [RandomSource ρ] [BulletFactory φ α]

/-- The swarm after a call. -/
def Call.run (s : Swarm α) : Call φ ρ α → Swarm α
  | insert bullet runner => s.insert bullet runner
  | tick frame factory source => (s.tick frame factory source).swarm
  | remove id => (s.remove id).2
  | modify id f => s.modify id f
  | modifyAll f => s.modifyAll f

/-- A call after which the bullets of a swarm are still distinct, and which inserts only patterns with a
property. -/
def Call.Fits (P : Runner → Prop) (s : Swarm α) : Call φ ρ α → Prop
  | insert bullet runner => bullet.id ∉ s.ids ∧ ∀ r, runner = some r → P r
  | tick frame factory source => (s.ids ++ (s.tick frame factory source).report.spawned).Nodup
  | remove _ => True
  | modify _ f | modifyAll f => ∀ b, (f b).id = b.id

/-- Whose bullets a host takes to be in a swarm after a call, by what it did itself and by the report. -/
def Call.mirror (s : Swarm α) (ids : List BulletId) : Call φ ρ α → List BulletId
  | insert bullet _ => ids ++ [bullet.id]
  | tick frame factory source =>
    let report := (s.tick frame factory source).report
    ids.filter (· ∉ report.removed) ++ report.spawned
  | remove id => ids.erase id
  | modify _ _ | modifyAll _ => ids

end Calls

/-- A swarm after some calls, and whose bullets its host takes to be in it. The hosts of the calls may be
of different types. -/
inductive Mirrored {α : Type} (P : Runner → Prop) : Swarm α → List BulletId → Prop where
  | empty : Mirrored P empty []
  | call {φ ρ : Type} [RandomSource ρ] [BulletFactory φ α] {s : Swarm α} {ids : List BulletId}
    (c : Call φ ρ α) (hc : c.Fits P s) : Mirrored P s ids → Mirrored P (c.run s) (c.mirror s ids)

variable {φ ρ α : Type}

/-- Whose patterns have vanished although their bullets are in a swarm. -/
def vanishedIds (s : Swarm α) : List BulletId :=
  (s.entries.filter Entry.hasVanished).map (·.bullet.id)

theorem vanishedIds_eq_nil {s : Swarm α} :
    s.vanishedIds = [] ↔ ∀ e ∈ s.entries, e.hasVanished = false := by
  simp [vanishedIds]

/-! ## Calls that change the entries -/

theorem ids_insert (s : Swarm α) (bullet : Bullet α) (runner : Option Runner) :
    (s.insert bullet runner).ids = s.ids ++ [bullet.id] := by
  simp [ids, insert]

theorem ids_remove (s : Swarm α) (id : BulletId) : (s.remove id).2.ids = s.ids.erase id := by
  rw [List.erase_eq_eraseP', ids, ids, List.eraseP_map]
  rfl

theorem map_modifyFirst {β : Type} {g : Entry α → β} {f : Bullet α → Bullet α}
    (h : ∀ e : Entry α, g { e with bullet := f e.bullet } = g e) (id : BulletId)
    (entries : List (Entry α)) : (modifyFirst id f entries).map g = entries.map g := by
  induction entries with
  | nil => rfl
  | cons e rest ih =>
    rw [modifyFirst]
    split
    · rw [List.map_cons, List.map_cons, h]
    · rw [List.map_cons, List.map_cons, ih]

theorem map_modifyAll {β : Type} {g : Entry α → β} {f : Bullet α → Bullet α}
    (h : ∀ e : Entry α, g { e with bullet := f e.bullet } = g e) (s : Swarm α) :
    (s.modifyAll f).entries.map g = s.entries.map g := by
  rw [modifyAll, List.map_map]
  exact List.map_congr_left fun e _ => h e

/-- What holds of entries holds of others that are alike in all that it is about. -/
theorem forall_of_map {β : Type} {g : Entry α → β} {P : β → Prop} {entries entries' : List (Entry α)}
    (h : entries'.map g = entries.map g) (hall : ∀ e ∈ entries, P (g e)) :
    ∀ e ∈ entries', P (g e) := by
  rw [← List.forall_mem_map, h]
  exact List.forall_mem_map.2 hall

/-! ## Ticks -/

/-- Of distinct elements, those without a property are those that are not among the ones that have
it. -/
theorem map_filter_not {β γ : Type} [DecidableEq γ] {f : β → γ} {l : List β} (h : (l.map f).Nodup)
    (p : β → Bool) :
    (l.filter fun x => !p x).map f = (l.map f).filter fun y => y ∉ (l.filter p).map f := by
  rw [List.filter_map]
  congr 1
  refine List.filter_congr fun x hx => ?_
  have hmem : f x ∈ (l.filter p).map f ↔ p x = true := by
    refine ⟨fun hy => ?_, fun hp => List.mem_map_of_mem (List.mem_filter.2 ⟨hx, hp⟩)⟩
    obtain ⟨x', hx', hf⟩ := List.mem_map.1 hy
    obtain ⟨hl, hp⟩ := List.mem_filter.1 hx'
    rwa [← List.inj_on_of_nodup_map h hl hx hf]
  simp only [Function.comp_apply, hmem]
  cases p x <;> rfl

variable [RandomSource ρ] [BulletFactory φ α]

/-- A pass leaves each entry its bullet. -/
theorem ids_pass (frame : Frame) (entries : List (Entry α)) (factory : φ) (source : ρ) :
    (pass frame entries factory source).entries.map (·.bullet.id)
      = entries.map (·.bullet.id) := by
  have h := pass_ticks frame entries factory source
  generalize (pass frame entries factory source).entries = after at h
  induction h with
  | nil => rfl
  | cons he _ ih => rw [List.map_cons, List.map_cons, ih, he.steered.id]

/-- The patterns that have vanished after a pass are those that it reports as removed and those that
had vanished before. -/
theorem vanished_pass (frame : Frame) (entries : List (Entry α)) (factory : φ) (source : ρ) :
    (((pass frame entries factory source).entries.filter Entry.hasVanished).map (·.bullet.id)).Perm
      ((pass frame entries factory source).report.removed
        ++ (entries.filter Entry.hasVanished).map (·.bullet.id)) := by
  induction entries generalizing factory source with
  | nil => exact .nil
  | cons e rest ih =>
    cases he : e.hasVanished with
    | true =>
      -- It has no tick and is not reported, so it counts among those of before.
      have hx := Entry.tick_of_vanished he frame factory source
      simp only [pass, hx, List.filter_cons_of_pos he, List.map_cons, Report.removed_append]
      exact ((ih factory source).cons e.bullet.id).trans List.perm_middle.symm
    | false =>
      have hx := Entry.removed_tick he frame factory source
      have hid : (e.tick frame factory source).1.bullet.id = e.bullet.id :=
        (Entry.TicksTo.steered ⟨factory, source, rfl⟩).id
      simp only [pass, Report.removed_append, hx, List.filter_cons, he]
      cases (e.tick frame factory source).1.hasVanished with
      | true =>
        simp only [if_true, List.map_cons, hid]
        exact (ih _ _).cons e.bullet.id
      | false => exact ih _ _

/-- A tick leaves those bullets in a swarm that it does not report as removed, but for those whose
patterns had vanished before. -/
theorem ids_tick {s : Swarm α} (h : s.ids.Nodup) (frame : Frame) (factory : φ) (source : ρ) :
    (s.tick frame factory source).swarm.ids
      = s.ids.filter (· ∉ (s.tick frame factory source).report.removed ++ s.vanishedIds)
        ++ (s.tick frame factory source).report.spawned := by
  have hids : (pass frame s.entries factory source).entries.map (·.bullet.id) = s.ids :=
    ids_pass frame s.entries factory source
  have hgone := vanished_pass frame s.entries factory source
  rw [ids, entries_tick, List.map_append, spawned_tick, List.map_map, removed_tick,
    map_filter_not (by rwa [hids])]
  congr 1
  rw [hids]
  refine List.filter_congr fun id _ => decide_eq_decide.2 ?_
  rw [hgone.mem_iff]
  exact Iff.rfl

/-- What a tick reports as removed was in the swarm, and its pattern had not vanished before. -/
theorem removed_nodup {s : Swarm α} (h : s.ids.Nodup) (frame : Frame) (factory : φ) (source : ρ) :
    ((s.tick frame factory source).report.removed ++ s.vanishedIds).Nodup ∧
      ∀ id ∈ (s.tick frame factory source).report.removed ++ s.vanishedIds, id ∈ s.ids := by
  have hids : (pass frame s.entries factory source).entries.map (·.bullet.id) = s.ids :=
    ids_pass frame s.entries factory source
  have hgone := vanished_pass frame s.entries factory source
  have hsub : (((pass frame s.entries factory source).entries.filter Entry.hasVanished).map
      (·.bullet.id)).Sublist s.ids := by
    rw [← hids]
    exact List.filter_sublist.map _
  rw [removed_tick]
  exact ⟨hgone.nodup_iff.1 (hsub.nodup h), fun id hid => hsub.subset (hgone.mem_iff.2 hid)⟩

end Swarm

/-! ## Bullets that were made have not vanished -/

variable {φ ρ α : Type}

/-- The pattern of a bullet that was made is running, if it has one. -/
theorem Spawn.IsMade.isRunning {builder : Builder} {w : Spawn α} (h : w.IsMade builder) {r : Runner}
    (hr : w.runner = some r) : r.isRunning = true ∧ w.fault = none := by
  rcases h.cases with ⟨x, -, hnone, -⟩ | ⟨hnone, -⟩ | ⟨r', hb, hsome, hfault⟩
  · cases hnone.symm.trans hr
  · cases hnone.symm.trans hr
  · obtain rfl := Option.some.inj (hsome.symm.trans hr)
    refine ⟨?_, hfault⟩
    rw [Runner.bind, (Runner.New.bullet hb).blank.2]
    rfl

theorem Spawn.IsMade.present {builder : Builder} {w : Spawn α} (h : w.IsMade builder) :
    w.entry.hasVanished = false := by
  unfold Spawn.entry Entry.hasVanished
  cases hr : w.runner with
  | none => rfl
  | some r => simp [Runner.bind, r.isRunning_iff.1 (h.isRunning hr).1]

/-- No entry has vanished after a tick. -/
theorem Swarm.present_tick [RandomSource ρ] [BulletFactory φ α] (s : Swarm α) (frame : Frame)
    (factory : φ) (source : ρ) :
    ∀ e ∈ (s.tick frame factory source).swarm.entries, e.hasVanished = false := by
  intro e he
  rw [entries_tick] at he
  rcases List.mem_append.1 he with he | he
  · simpa using (List.mem_filter.1 he).2
  · obtain ⟨w, hw, rfl⟩ := List.mem_map.1 he
    obtain ⟨-, -, r, -, hm⟩ := (s.spawned_eq_creations frame factory source).2 w hw
    exact hm.present

/-- If no pattern had vanished when it was inserted, a host takes the right bullets to be in the swarm,
and none of them has vanished. -/
theorem Swarm.Mirrored.sound {P : Runner → Prop} (hP : ∀ r, P r → r.state ≠ .vanished) {s : Swarm α}
    {ids : List BulletId} (h : s.Mirrored P ids) :
    ids = s.ids ∧ s.ids.Nodup ∧ ∀ e ∈ s.entries, e.hasVanished = false := by
  induction h with
  | empty => exact ⟨rfl, .nil, fun e he => by cases he⟩
  | @call φ ρ _ _ s ids c hc _ ih =>
    obtain ⟨rfl, hnodup, hpresent⟩ := ih
    cases c with
    | insert bullet runner =>
      obtain ⟨hfresh, hr⟩ := hc
      refine ⟨(s.ids_insert bullet runner).symm, ?_, fun e he => ?_⟩
      · rw [Call.run, ids_insert]
        exact List.nodup_append.2 ⟨hnodup, List.nodup_singleton _, by
          rintro id hid _ hb rfl
          exact hfresh (List.mem_singleton.1 hb ▸ hid)⟩
      · rcases List.mem_append.1 he with he | he
        · exact hpresent e he
        · obtain rfl := List.mem_singleton.1 he
          cases hrunner : runner with
          | none => rfl
          | some r => simpa [Entry.hasVanished, Runner.bind] using hP r (hr r hrunner)
    | tick frame factory source =>
      have hids := ids_tick hnodup frame factory source
      rw [vanishedIds_eq_nil.2 hpresent, List.append_nil] at hids
      refine ⟨hids.symm, ?_, s.present_tick frame factory source⟩
      show (s.tick frame factory source).swarm.ids.Nodup
      rw [hids]
      exact (List.filter_sublist.append_right _).nodup hc
    | remove id =>
      refine ⟨(s.ids_remove id).symm, ?_, fun e he => hpresent e (List.mem_of_mem_eraseP he)⟩
      rw [Call.run, ids_remove]
      exact hnodup.erase id
    | modify id f =>
      have hids : (s.modify id f).ids = s.ids := map_modifyFirst (fun e => hc e.bullet) id s.entries
      exact ⟨hids.symm, hids ▸ hnodup,
        forall_of_map (P := (· = false)) (map_modifyFirst (fun _ => rfl) id s.entries) hpresent⟩
    | modifyAll f =>
      have hids : (s.modifyAll f).ids = s.ids := map_modifyAll (fun e => hc e.bullet) s
      exact ⟨hids.symm, hids ▸ hnodup,
        forall_of_map (P := (· = false)) (map_modifyAll (fun _ => rfl) s) hpresent⟩

end Barrage
