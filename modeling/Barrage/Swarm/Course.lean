import Barrage.Swarm.History
import Barrage.Swarm.Share

/-!
# What a host is told of a bullet

* `Report.told`: how a report says that the pattern of a bullet came to its end.
* `Report.told_of_share`, `Report.told_of_spawn`, `Report.told_of_absent`: in a tick with distinct bullets
  a host is told of a bullet what its own share reports, or why its pattern could not be built, and
  nothing of a bullet that is not there.
* `Swarm.runs`, `Swarm.Ended`: the pattern of a bullet is running, or has come to an end.
* `Moment`, `Swarm.Course`: the calls of a host one after the other, with what it was told.
* `Moment.Passes`, `Swarm.Call.passes`: in one call a bullet stays as it is, or its host takes it out, or the
  end of its pattern is reported.
* `Moment.Keeps`: a bullet stays as it is or its host takes it out. `Swarm.Course.told_of_runs`,
  `Swarm.Course.told_of_not_runs`: all calls but one do that.
-/

namespace Barrage

/-- How a report says that the pattern of a bullet came to its end; more than once if it says so more
than once. -/
def Report.told (r : Report) (id : BulletId) : List Verdict :=
  (r.completed.filter (· = id)).map (fun _ => .completed)
    ++ (r.removed.filter (· = id)).map (fun _ => .removed)
    ++ (r.aborted.filter (·.1 = id)).map fun line => .aborted line.2

theorem Verdict.told_report (v : Verdict) (id : BulletId) : (v.report id).told id = [v] := by
  cases v <;> simp [report, Report.told, Report.nothing]

variable {φ ρ α : Type}

/-! ## What shares report -/

theorem filter_flatMap_of_none {β γ : Type} {f : β → List γ} {p : γ → Bool} {l : List β}
    (h : ∀ b ∈ l, ∀ y ∈ f b, p y = false) : (l.flatMap f).filter p = [] := by
  refine List.filter_eq_nil_iff.2 fun y hy => ?_
  obtain ⟨b, hb, hy⟩ := List.mem_flatMap.1 hy
  simp [h b hb y hy]

/-- What one element of a list gives, if the others give nothing with a property. -/
theorem filter_flatMap_of_one {β γ : Type} {f : β → List γ} {p : γ → Bool} {before after : List β}
    {x : β} (h : ∀ b ∈ before ++ after, ∀ y ∈ f b, p y = false) :
    ((before ++ x :: after).flatMap f).filter p = (f x).filter p := by
  rw [List.flatMap_append, List.flatMap_cons, List.filter_append, List.filter_append,
    filter_flatMap_of_none fun b hb => h b (List.mem_append_left _ hb),
    filter_flatMap_of_none fun b hb => h b (List.mem_append_right _ hb), List.nil_append,
    List.append_nil]

/-- One element of a list with distinct keys has a key that no other has. -/
theorem key_ne_of_nodup {β γ : Type} {key : β → γ} {before after : List β} {x : β}
    (h : ((before ++ x :: after).map key).Nodup) : ∀ b ∈ before ++ after, key b ≠ key x := by
  rw [List.map_append, List.map_cons, List.nodup_middle, ← List.map_append, List.nodup_cons] at h
  intro b hb hkey
  exact h.1 (hkey ▸ List.mem_map_of_mem hb)

/-- A share whose turn reports nothing of a bullet. -/
structure Share.Silent (a : Share α) (id : BulletId) : Prop where
  removed : ∀ y ∈ a.report.removed, decide (y = id) = false
  completed : ∀ y ∈ a.report.completed, decide (y = id) = false
  aborted : ∀ line ∈ a.report.aborted, decide (line.1 = id) = false

theorem Share.Own.silent {a : Share α} (h : a.Own) {id : BulletId} (hne : a.entry.bullet.id ≠ id) :
    a.Silent id where
  removed y hy := by simpa [h.removed y hy] using hne
  completed y hy := by simpa [h.completed y hy] using hne
  aborted line hline := by simpa [h.aborted line hline] using hne

namespace Report

/-- If no turn reports anything of a bullet, a host is told why its pattern could not be built, if
anything. -/
theorem told_of_silent {shares : List (Share α)} {id : BulletId} (h : ∀ a ∈ shares, a.Silent id) :
    (ofShares shares).told id
      = ((shares.flatMap Share.faults).filter (·.1 = id)).map fun line => .aborted line.2 := by
  unfold told ofShares
  rw [filter_flatMap_of_none fun a ha => (h a ha).completed,
    filter_flatMap_of_none fun a ha => (h a ha).removed, List.filter_append,
    filter_flatMap_of_none fun a ha => (h a ha).aborted]
  rfl

variable {shares : List (Share α)} {a : Share α} (hown : ∀ b ∈ shares, b.Own)
  (hnodup : (shares.map (·.entry.bullet.id) ++ shares.flatMap Share.joined).Nodup)

include hown hnodup

/-- Of a bullet a host is told what its own share reports. -/
theorem told_of_share (ha : a ∈ shares) :
    (ofShares shares).told a.entry.bullet.id = a.report.told a.entry.bullet.id := by
  obtain ⟨before, after, rfl⟩ := List.append_of_mem ha
  obtain ⟨honce, -, hfresh⟩ := List.nodup_append.1 hnodup
  have hsilent (b : Share α) (hb : b ∈ before ++ after) : b.Silent a.entry.bullet.id := by
    have hmem := (List.perm_middle (a := a)).mem_iff.2 (List.mem_cons_of_mem a hb)
    exact (hown b hmem).silent (key_ne_of_nodup honce b hb)
  have hfaults : ((before ++ a :: after).flatMap Share.faults).filter (·.1 = a.entry.bullet.id)
      = [] := by
    refine filter_flatMap_of_none fun b hb line hline => decide_eq_false fun hid => ?_
    have hjoined := List.mem_flatMap.2 ⟨b, hb, Share.mem_faults hline⟩
    exact hfresh _ (List.mem_map_of_mem ha) _ hjoined hid.symm
  unfold told ofShares
  rw [filter_flatMap_of_one fun b hb => (hsilent b hb).completed,
    filter_flatMap_of_one fun b hb => (hsilent b hb).removed, List.filter_append,
    filter_flatMap_of_one fun b hb => (hsilent b hb).aborted, hfaults, List.append_nil]

/-- Of a bullet that was made a host is told why its pattern could not be built, if it could not. -/
theorem told_of_spawn {w : Spawn α} (hw : w ∈ shares.flatMap (·.spawned)) :
    (ofShares shares).told w.bullet.id = w.fault.toList.map .aborted := by
  obtain ⟨-, honce, hfresh⟩ := List.nodup_append.1 hnodup
  have hjoined : shares.flatMap Share.joined = (shares.flatMap (·.spawned)).map (·.bullet.id) :=
    List.map_flatMap.symm
  have hfaults : shares.flatMap Share.faults
      = (shares.flatMap (·.spawned)).flatMap fun w => w.fault.toList.map fun x => (w.bullet.id, x) :=
    List.flatMap_assoc.symm
  rw [hjoined] at honce hfresh
  rw [told_of_silent fun b hb => (hown b hb).silent
    (hfresh _ (List.mem_map_of_mem hb) _ (List.mem_map_of_mem hw)), hfaults]
  generalize shares.flatMap (·.spawned) = spawned at hw honce
  obtain ⟨before, after, rfl⟩ := List.append_of_mem hw
  rw [filter_flatMap_of_one]
  · cases w.fault <;> simp
  · intro w' hw' line hline
    obtain ⟨x, -, rfl⟩ := List.mem_map.1 hline
    exact decide_eq_false (key_ne_of_nodup honce w' hw')

omit hnodup in
/-- Of a bullet that is not there a host is told nothing. -/
theorem told_of_absent {id : BulletId}
    (hid : id ∉ shares.map (·.entry.bullet.id) ++ shares.flatMap Share.joined) :
    (ofShares shares).told id = [] := by
  rw [List.mem_append, not_or] at hid
  have hne (b : Share α) (hb : b ∈ shares) : b.entry.bullet.id ≠ id := by
    rintro rfl
    exact hid.1 (List.mem_map_of_mem hb)
  rw [told_of_silent fun b hb => (hown b hb).silent (hne b hb), filter_flatMap_of_none,
    List.map_nil]
  intro b hb line hline
  refine decide_eq_false ?_
  rintro rfl
  exact hid.2 (List.mem_flatMap.2 ⟨b, hb, Share.mem_faults hline⟩)

end Report

/-! ## Entries by their bullets -/

namespace Swarm

/-- The pattern of a bullet is running. -/
def runs (s : Swarm α) (id : BulletId) : Bool := (s.runner? id).any (·.isRunning)

/-- The pattern of a bullet has come to its end in some way; if it removed its bullet, that is gone. -/
def Ended (s : Swarm α) (id : BulletId) : Verdict → Prop
  | .removed => id ∉ s.ids
  | v => ∃ r, s.runner? id = some r ∧ r.state = v.state

theorem entry?_of_mem {s : Swarm α} (h : s.ids.Nodup) {e : Entry α} (he : e ∈ s.entries) :
    s.entry? e.bullet.id = some e := by
  unfold entry?
  cases hfind : s.entries.find? fun e' => e'.bullet.id == e.bullet.id with
  | none => simpa using List.find?_eq_none.1 hfind e he
  | some e' =>
    have hid : e'.bullet.id = e.bullet.id := by simpa using List.find?_some hfind
    rw [List.inj_on_of_nodup_map h (List.mem_of_find?_eq_some hfind) he hid]

theorem runs_of_mem {s : Swarm α} (h : s.ids.Nodup) {e : Entry α} (he : e ∈ s.entries) :
    s.runs e.bullet.id = e.isRunning := by
  rw [runs, runner?, entry?_of_mem h he]
  rfl

theorem runs_of_absent {s : Swarm α} {id : BulletId} (h : id ∉ s.ids) : s.runs id = false := by
  have hnone : s.entry? id = none := by
    refine List.find?_eq_none.2 fun e he hid => h ?_
    have hid : e.bullet.id = id := by simpa using hid
    exact hid ▸ List.mem_map_of_mem he
  rw [runs, runner?, hnone]
  rfl

theorem Ended.not_runs {s : Swarm α} {id : BulletId} {v : Verdict} (h : s.Ended id v) :
    s.runs id = false := by
  cases v with
  | removed => exact runs_of_absent h
  | completed | aborted _ =>
    obtain ⟨r, hr, hs⟩ := h
    simp [runs, hr, Runner.isRunning, hs, Verdict.state]

end Swarm

/-! ## Calls -/

/-- Which of its calls a host makes, and about which bullet. -/
inductive CallKind where
  | insert (id : BulletId)
  | tick
  | remove (id : BulletId)
  | modify (id : BulletId)
  | modifyAll
deriving DecidableEq

/-- A call as its host sees it: which it was, the swarm before it, what the host was told, and the swarm
after it. -/
structure Moment (α : Type) where
  kind : CallKind
  before : Swarm α
  report : Report
  after : Swarm α

/-- What becomes of a bullet that is there before a call. -/
inductive Moment.Passes (m : Moment α) (id : BulletId) : Prop where
  /-- Its pattern is running after the call if it was before, and not if it was not. -/
  | stays (hid : id ∈ m.after.ids) (hruns : m.after.runs id = m.before.runs id)
    (htold : m.report.told id = [])
  /-- The host took it out. -/
  | taken (hkind : m.kind = .remove id) (hid : id ∉ m.after.ids) (htold : m.report.told id = [])
  /-- Its pattern was running and has come to its end in a tick. -/
  | ends (v : Verdict) (hkind : m.kind = .tick) (hruns : m.before.runs id = true)
    (hv : m.after.Ended id v) (htold : m.report.told id = [v])

/-- A host is told nothing of a bullet in a call. After it the bullet is there and its pattern is running,
or is not, as said; unless the call took the bullet out. -/
def Moment.Keeps (m : Moment α) (id : BulletId) (running : Bool) : Prop :=
  m.report.told id = [] ∧
    (id ∈ m.after.ids ∧ m.after.runs id = running ∨ m.kind = .remove id ∧ id ∉ m.after.ids)

namespace Swarm

section Calls

variable [RandomSource ρ] [BulletFactory φ α]

/-- What a host is told by a call; only ticks report. -/
def Call.report (s : Swarm α) : Call φ ρ α → Report
  | tick frame factory source => (s.tick frame factory source).report
  | insert _ _ | remove _ | modify _ _ | modifyAll _ => .nothing

/-- Which call it is. -/
def Call.kind : Call φ ρ α → CallKind
  | insert bullet _ => .insert bullet.id
  | tick _ _ _ => .tick
  | remove id => .remove id
  | modify id _ => .modify id
  | modifyAll _ => .modifyAll

/-- A call of a host. -/
def Call.moment (s : Swarm α) (c : Call φ ρ α) : Moment α := ⟨c.kind, s, c.report s, c.run s⟩

end Calls

/-- Swarms from one to another by calls of hosts, which may be of different types, and what they were
told. -/
inductive Course {α : Type} (P : Runner → Prop) : Swarm α → List (Moment α) → Swarm α → Prop where
  | nil {s : Swarm α} : Course P s [] s
  | call {φ ρ : Type} [RandomSource ρ] [BulletFactory φ α] {s s' : Swarm α} {ms : List (Moment α)}
    (c : Call φ ρ α) (hc : c.Fits P s) : Course P (c.run s) ms s' → Course P s (c.moment s :: ms) s'

/-- Bullets are distinct, and none of them has vanished. -/
structure Sound (s : Swarm α) : Prop where
  nodup : s.ids.Nodup
  present : ∀ e ∈ s.entries, e.hasVanished = false

theorem runner?_eq (s : Swarm α) (id : BulletId) :
    s.runner? id
      = ((s.entries.map fun e => (e.bullet.id, e.runner)).find? (·.1 == id)).bind (·.2) := by
  rw [List.find?_map, Option.bind_map]
  rfl

/-- Calls that keep all ids and all patterns. -/
theorem runs_of_map {s s' : Swarm α}
    (h : s'.entries.map (fun e => (e.bullet.id, e.runner))
      = s.entries.map fun e => (e.bullet.id, e.runner)) (id : BulletId) :
    s'.runs id = s.runs id := by
  rw [runs, runs, runner?_eq, runner?_eq, h]

section Shares

variable {shares : List (Share α)}
  (hnodup : (shares.map (·.entry.bullet.id) ++ shares.flatMap Share.joined).Nodup)

include hnodup

theorem ofShares_nodup : (ofShares shares).ids.Nodup := by
  have hids : (ofShares shares).ids
      = ((shares.map (·.entry)).filter fun e => !e.hasVanished).map (·.bullet.id)
        ++ shares.flatMap Share.joined := by
    rw [ids, ofShares, List.map_append, List.map_flatMap]
    simp only [List.map_map]
    rfl
  have hsub := (List.filter_sublist (l := shares.map (·.entry))
    (p := fun e => !e.hasVanished)).map (·.bullet.id)
  rw [List.map_map] at hsub
  rw [hids]
  exact (hsub.append_right _).nodup hnodup

omit hnodup in
theorem mem_ofShares {a : Share α} (ha : a ∈ shares) (h : a.entry.hasVanished = false) :
    a.entry ∈ (ofShares shares).entries :=
  List.mem_append_left _ (List.mem_filter.2 ⟨List.mem_map_of_mem ha, by simp [h]⟩)

omit hnodup in
theorem made_mem_ofShares {w : Spawn α} (hw : w ∈ shares.flatMap (·.spawned)) :
    w.entry ∈ (ofShares shares).entries := by
  obtain ⟨a, ha, hw⟩ := List.mem_flatMap.1 hw
  exact List.mem_append_right _ (List.mem_flatMap.2 ⟨a, ha, List.mem_map_of_mem hw⟩)

/-- A bullet that vanished is gone. -/
theorem not_mem_ofShares {a : Share α} (ha : a ∈ shares) (h : a.entry.hasVanished = true) :
    a.entry.bullet.id ∉ (ofShares shares).ids := by
  obtain ⟨honce, -, hfresh⟩ := List.nodup_append.1 hnodup
  intro hid
  obtain ⟨e, he, hid⟩ := List.mem_map.1 hid
  rcases List.mem_append.1 he with he | he
  · obtain ⟨hmem, hpresent⟩ := List.mem_filter.1 he
    obtain ⟨b, hb, rfl⟩ := List.mem_map.1 hmem
    rw [List.inj_on_of_nodup_map honce hb ha hid] at hpresent
    simp [h] at hpresent
  · obtain ⟨b, hb, hjoined⟩ := List.mem_flatMap.1 he
    obtain ⟨w, hw, rfl⟩ := List.mem_map.1 hjoined
    exact hfresh _ (List.mem_map_of_mem ha) _
      (List.mem_flatMap.2 ⟨b, hb, List.mem_map_of_mem hw⟩) hid.symm

/-- What becomes of a bullet whose share is known. -/
theorem passes_of_share {s : Swarm α} (hs : s.Sound) {e : Entry α} (he : e ∈ s.entries)
    (hown : ∀ b ∈ shares, b.Own) {a : Share α} (ha : a ∈ shares) (h : e.Fares a) :
    Moment.Passes ⟨.tick, s, .ofShares shares, ofShares shares⟩ e.bullet.id := by
  have htold := Report.told_of_share hown hnodup ha
  have hbefore := runs_of_mem hs.nodup he
  have hstands (hv : a.entry.hasVanished = false) :
      a.entry.bullet.id ∈ (ofShares shares).ids ∧
        entry? (ofShares shares) a.entry.bullet.id = some a.entry :=
    ⟨List.mem_map_of_mem (mem_ofShares ha hv),
      entry?_of_mem (ofShares_nodup hnodup) (mem_ofShares ha hv)⟩
  have hgone := not_mem_ofShares hnodup ha
  cases h with
  | rests hrest =>
    obtain ⟨hid, hentry⟩ := hstands (hs.present e he)
    refine .stays hid ?_ htold
    rw [runs, runner?, hentry, hbefore]
    rfl
  | @goesOn bullet r spawned hrun hid hr =>
    obtain ⟨hthere, hentry⟩ := hstands (by simp [Entry.hasVanished, hr])
    rw [← hid]
    refine .stays hthere ?_ htold
    rw [runs, runner?, hentry, hid, hbefore, hrun]
    simp [Runner.isRunning, hr]
  | @ends bullet r spawned v hrun hid hr =>
    rw [hid, Verdict.told_report] at htold
    refine .ends v rfl (hbefore.trans hrun) ?_ htold
    rw [hid] at hstands hgone
    cases v with
    | removed => exact hgone (by simp [Entry.hasVanished, hr, Verdict.state])
    | completed | aborted _ =>
      obtain ⟨-, hentry⟩ := hstands (by simp [Entry.hasVanished, hr, Verdict.state])
      exact ⟨r, by rw [runner?, hentry]; rfl, hr⟩

end Shares

section Calls

variable [RandomSource ρ] [BulletFactory φ α]

theorem exists_share (frame : Frame) {entries : List (Entry α)} {e : Entry α} (he : e ∈ entries)
    (x : Relay φ ρ) : ∃ a ∈ (shares frame entries x).1, e.Fares a := by
  obtain ⟨before, after, rfl⟩ := List.append_of_mem he
  rw [shares_middle]
  exact ⟨_, List.mem_append_right _ List.mem_cons_self, e.share_fares frame _⟩

omit [RandomSource ρ] [BulletFactory φ α] in
/-- An entry that is in a swarm before and after a call has its pattern running after it if it had it
running before. -/
theorem passes_of_mem {s s' : Swarm α} (kind : CallKind) (hs : s.ids.Nodup) (hs' : s'.ids.Nodup)
    {e : Entry α} (he : e ∈ s.entries) (he' : e ∈ s'.entries) :
    Moment.Passes ⟨kind, s, .nothing, s'⟩ e.bullet.id :=
  .stays (List.mem_map_of_mem he') ((runs_of_mem hs' he').trans (runs_of_mem hs he).symm) rfl

omit [RandomSource ρ] [BulletFactory φ α] in
/-- An edit of bullets that keeps their ids leaves their patterns alone. -/
theorem passes_of_map {s s' : Swarm α} (kind : CallKind)
    (h : s'.entries.map (fun e => (e.bullet.id, e.runner))
      = s.entries.map fun e => (e.bullet.id, e.runner)) {id : BulletId} (hid : id ∈ s.ids) :
    Moment.Passes ⟨kind, s, .nothing, s'⟩ id := by
  have hids : s'.ids = s.ids := by
    have hfst := congrArg (List.map Prod.fst) h
    rwa [List.map_map, List.map_map] at hfst
  exact .stays (hids ▸ hid) (runs_of_map h id) rfl

/-- What becomes of a bullet in a call. -/
theorem Call.passes {P : Runner → Prop} {s : Swarm α} (hs : s.Sound) {c : Call φ ρ α}
    (hc : c.Fits P s) {id : BulletId} (hid : id ∈ s.ids) : (c.moment s).Passes id := by
  obtain ⟨e, he, rfl⟩ := List.mem_map.1 hid
  cases c with
  | insert bullet runner =>
    have hnodup : (s.insert bullet runner).ids.Nodup := by
      rw [ids_insert]
      exact (List.perm_append_singleton bullet.id s.ids).nodup_iff.2
        (List.nodup_cons.2 ⟨hc.1, hs.nodup⟩)
    exact passes_of_mem _ hs.nodup hnodup he (List.mem_append_left _ he)
  | tick frame factory source =>
    obtain ⟨a, ha, hfares⟩ := exists_share frame he (⟨factory, source, 0⟩ : Relay φ ρ)
    have hnodup : (s.ids ++ (s.tick frame factory source).report.spawned).Nodup := hc
    rw [s.ids_append_spawned frame ⟨factory, source, 0⟩] at hnodup
    have h := passes_of_share hnodup hs he (shares_own frame s.entries _) ha hfares
    have htick := s.tick_eq_shares frame (⟨factory, source, 0⟩ : Relay φ ρ)
    simp only [moment, report, run, htick]
    exact h
  | remove id =>
    have hnodup : (s.remove id).2.ids.Nodup := by
      rw [ids_remove]
      exact hs.nodup.erase id
    by_cases hsame : e.bullet.id = id
    · refine .taken (congrArg CallKind.remove hsame.symm) ?_ rfl
      show e.bullet.id ∉ (s.remove id).2.ids
      rw [ids_remove, hsame]
      exact hs.nodup.not_mem_erase
    · have hmem : e ∈ (s.remove id).2.entries :=
        (List.mem_eraseP_of_neg (by simpa using hsame)).2 he
      exact passes_of_mem _ hs.nodup hnodup he hmem
  | modify id f =>
    exact passes_of_map _ (map_modifyFirst (fun e => by rw [hc e.bullet]) id s.entries) hid
  | modifyAll f => exact passes_of_map _ (map_modifyAll (fun e => by rw [hc e.bullet]) s) hid

end Calls

/-! ## Courses -/

variable {P : Runner → Prop} {s s' : Swarm α} {ms : List (Moment α)} {id : BulletId}

theorem Mirrored.isSound (hP : ∀ r, P r → r.isRunning = true) {ids : List BulletId}
    (h : s.Mirrored P ids) : s.Sound := by
  have hvanished (r : Runner) (hr : P r) : r.state ≠ .vanished := by
    rw [(r.isRunning_iff).1 (hP r hr)]
    decide
  obtain ⟨-, hnodup, hpresent⟩ := h.sound hvanished
  exact ⟨hnodup, hpresent⟩

/-- A swarm after calls of hosts is one that hosts can come by. -/
theorem Course.mirrored (h : Course P s ms s') :
    (∃ ids, s.Mirrored P ids) → ∃ ids, s'.Mirrored P ids := by
  induction h with
  | nil => exact fun hs => hs
  | call c hc _ ih => exact fun ⟨_, hs⟩ => ih ⟨_, .call c hc hs⟩

/-- A bullet that is not there takes no part in the calls that follow if it is there before each of
them. -/
theorem Course.eq_nil (h : Course P s ms s') (hlife : ∀ m ∈ ms, id ∈ m.before.ids)
    (hid : id ∉ s.ids) : ms = [] := by
  cases h with
  | nil => rfl
  | call c hc _ => exact absurd (hlife _ List.mem_cons_self) hid

/-- A pattern that is not running is not reported and never runs again, and only its host takes its bullet
out. -/
theorem Course.told_of_not_runs (hP : ∀ r, P r → r.isRunning = true) (h : Course P s ms s')
    (hs : ∃ ids, s.Mirrored P ids) (hlife : ∀ m ∈ ms, id ∈ m.before.ids) (hruns : s.runs id = false) :
    ∀ m ∈ ms, m.Keeps id false := by
  induction h with
  | nil => exact fun m hm => by cases hm
  | @call _ _ _ _ s s' ms c hc h ih =>
    obtain ⟨hid, hlife⟩ := List.forall_mem_cons.1 hlife
    obtain ⟨ids, hs⟩ := hs
    have hnext : ∃ ids, (c.run s).Mirrored P ids := ⟨_, .call c hc hs⟩
    cases c.passes (hs.isSound hP) hc hid with
    | stays hthere hsame htold =>
      have hafter := hsame.trans hruns
      exact List.forall_mem_cons.2 ⟨⟨htold, .inl ⟨hthere, hafter⟩⟩, ih hnext hlife hafter⟩
    | taken hkind hgone htold =>
      -- The bullet is there before each call, so this is the last one.
      obtain rfl := h.eq_nil hlife hgone
      exact List.forall_mem_singleton.2 ⟨htold, .inr ⟨hkind, hgone⟩⟩
    | ends v _ hrun _ _ => exact absurd (hrun.symm.trans hruns) (by decide)

/-- A pattern that is running goes on and is not reported until its host takes its bullet out; or its end is
reported once, in the tick in which it comes to it. -/
theorem Course.told_of_runs (hP : ∀ r, P r → r.isRunning = true) (h : Course P s ms s')
    (hs : ∃ ids, s.Mirrored P ids) (hlife : ∀ m ∈ ms, id ∈ m.before.ids) (hruns : s.runs id = true) :
    (∀ m ∈ ms, m.Keeps id true) ∨
    ∃ ms₁ m ms₂ v, ms = ms₁ ++ m :: ms₂ ∧
      (∀ m' ∈ ms₁, m'.report.told id = [] ∧ m'.after.runs id = true) ∧
      (m.kind = .tick ∧ m.report.told id = [v] ∧ m.after.Ended id v) ∧
      ∀ m' ∈ ms₂, m'.Keeps id false := by
  induction h with
  | nil => exact .inl fun m hm => by cases hm
  | @call _ _ _ _ s s' ms c hc h ih =>
    obtain ⟨hid, hlife⟩ := List.forall_mem_cons.1 hlife
    obtain ⟨ids, hs⟩ := hs
    have hnext : ∃ ids, (c.run s).Mirrored P ids := ⟨_, .call c hc hs⟩
    cases c.passes (hs.isSound hP) hc hid with
    | stays hthere hsame htold =>
      have hafter := hsame.trans hruns
      rcases ih hnext hlife hafter with hall | ⟨ms₁, m, ms₂, v, rfl, hbefore, hend, hrest⟩
      · exact .inl (List.forall_mem_cons.2 ⟨⟨htold, .inl ⟨hthere, hafter⟩⟩, hall⟩)
      · exact .inr ⟨c.moment s :: ms₁, m, ms₂, v, rfl,
          List.forall_mem_cons.2 ⟨⟨htold, hafter⟩, hbefore⟩, hend, hrest⟩
    | taken hkind hgone htold =>
      -- The bullet is there before each call, so this is the last one.
      obtain rfl := h.eq_nil hlife hgone
      exact .inl (List.forall_mem_singleton.2 ⟨htold, .inr ⟨hkind, hgone⟩⟩)
    | ends v hkind _ hv htold =>
      -- From here on the pattern is not running, so nothing more is reported of it.
      exact .inr ⟨[], c.moment s, ms, v, rfl, List.forall_mem_nil _, ⟨hkind, htold, hv⟩,
        h.told_of_not_runs hP hnext hlife hv.not_runs⟩

end Swarm

end Barrage
