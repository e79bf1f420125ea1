import Barrage.Swarm.Lemmas

/-!
# The share of each entry in a tick

The patterns of a swarm have their turns on one frame, which goes from one to the next with the state of
the host and with the iterations that were left over.

* `Relay`: what is handed on. `Runner.tickOn`: a tick that takes it over; the iterations are set anew
  first. `Runner.tickOn_fst`: it is the tick of the pattern on its own.
* `Share`, `Entry.share`, `Swarm.shares`: what each entry has in a tick.
* `Swarm.tick_eq_shares`: a tick of a swarm is made of the shares of its entries, whatever was left over
  before it.
* `Entry.Fares`, `Entry.share_fares`: an entry stays as it is, goes on, or comes to its end, which is
  reported. `Entry.share_of_rests`: it hands on what it took over if its pattern is not running.
* `Entry.share_congr`, `Swarm.shares_congr`: what was left over shows in nothing but what is left over.
* `Swarm.shares_append`: shares of entries after others. `Swarm.exists_of_share`: each share is that of
  an entry.
-/

namespace Barrage

/-- What one tick of a pattern hands on to the next: the state of the host, and the iterations that its
loops have left over. -/
structure Relay (φ ρ : Type) where
  factory : φ
  source : ρ
  left : Nat

/-- The state of the host is the same; what is left over may be different. -/
def Relay.SameHost {φ ρ : Type} (x y : Relay φ ρ) : Prop :=
  x.factory = y.factory ∧ x.source = y.source

instance {φ ρ : Type} [DecidableEq φ] [DecidableEq ρ] (x y : Relay φ ρ) :
    Decidable (x.SameHost y) := by
  unfold Relay.SameHost
  infer_instance

/-- What an entry has in a tick: what becomes of it, the bullets that it makes, and what is reported of
it. -/
structure Share (α : Type) where
  entry : Entry α
  spawned : List (Spawn α)
  report : Report

/-- How a running pattern came to its end in a tick. -/
inductive Verdict where
  /-- All its steps were done. -/
  | completed
  /-- It removed its bullet. -/
  | removed
  /-- It failed. -/
  | aborted (error : StepError)
deriving DecidableEq

namespace Verdict

/-- The state of a pattern that came to its end. -/
def state : Verdict → RunnerState
  | completed => .completed
  | removed => .vanished
  | aborted _ => .aborted

/-- What is reported of a bullet whose pattern came to its end. -/
def report (id : BulletId) : Verdict → Report
  | completed => { Report.nothing with completed := [id] }
  | removed => { Report.nothing with removed := [id] }
  | aborted x => { Report.nothing with aborted := [(id, x)] }

end Verdict

variable {φ ρ α : Type}

/-- What an entry has in a tick: its pattern is not running, and nothing happens; or it goes on, and
nothing is reported; or it comes to its end, which is reported. -/
inductive Entry.Fares (e : Entry α) : Share α → Prop where
  | rests (h : e.isRunning = false) : Fares e ⟨e, [], .nothing⟩
  | goesOn {bullet : Bullet α} {r : Runner} {spawned : List (Spawn α)} (h : e.isRunning = true)
    (hid : bullet.id = e.bullet.id) (hr : r.state = .running) :
    Fares e ⟨⟨bullet, some r⟩, spawned, .nothing⟩
  | ends {bullet : Bullet α} {r : Runner} {spawned : List (Spawn α)} (v : Verdict)
    (h : e.isRunning = true) (hid : bullet.id = e.bullet.id) (hr : r.state = v.state) :
    Fares e ⟨⟨bullet, some r⟩, spawned, v.report e.bullet.id⟩

namespace Share

/-- Whose bullets join because of a share. -/
def joined (a : Share α) : List BulletId := a.spawned.map (·.bullet.id)

/-- The bullets of a share whose patterns could not be built, with the reasons. -/
def faults (a : Share α) : List (BulletId × StepError) :=
  a.spawned.flatMap fun w => w.fault.toList.map fun x => (w.bullet.id, x)

end Share

/-- A share whose turn reports nothing but of its own bullet. -/
structure Share.Own (a : Share α) : Prop where
  removed : ∀ id ∈ a.report.removed, id = a.entry.bullet.id
  completed : ∀ id ∈ a.report.completed, id = a.entry.bullet.id
  aborted : ∀ line ∈ a.report.aborted, line.1 = a.entry.bullet.id

theorem Entry.Fares.own {e : Entry α} {a : Share α} (h : e.Fares a) : a.Own := by
  cases h with
  | rests _ | goesOn _ _ _ => exact ⟨by simp [Report.nothing], by simp [Report.nothing],
      by simp [Report.nothing]⟩
  | ends v _ hid _ =>
    cases v <;>
      exact ⟨by simp [Verdict.report, Report.nothing, hid],
        by simp [Verdict.report, Report.nothing, hid], by simp [Verdict.report, Report.nothing, hid]⟩

theorem Entry.Fares.id {e : Entry α} {a : Share α} (h : e.Fares a) :
    a.entry.bullet.id = e.bullet.id := by
  cases h with
  | rests _ => rfl
  | goesOn _ hid _ | ends _ _ hid _ => exact hid

theorem Share.mem_faults {a : Share α} {line : BulletId × StepError} (h : line ∈ a.faults) :
    line.1 ∈ a.joined := by
  obtain ⟨w, hw, hline⟩ := List.mem_flatMap.1 h
  obtain ⟨x, -, rfl⟩ := List.mem_map.1 hline
  exact List.mem_map_of_mem hw

/-- The swarm that shares leave: first the entries that have not vanished, then the bullets that were
made. -/
def Swarm.ofShares (shares : List (Share α)) : Swarm α :=
  ⟨(shares.map (·.entry)).filter (fun e => !e.hasVanished)
    ++ shares.flatMap fun a => a.spawned.map Spawn.entry⟩

/-- The report of shares: first what their turns report, then the bullets whose patterns could not be
built. -/
def Report.ofShares (shares : List (Share α)) : Report :=
  ⟨shares.flatMap Share.joined, shares.flatMap (·.report.removed),
    shares.flatMap (·.report.completed),
    shares.flatMap (·.report.aborted) ++ shares.flatMap Share.faults⟩

section Ticks

variable [RandomSource ρ] [BulletFactory φ α]

/-- A tick of a pattern that takes over what was handed on, and the iterations it leaves over. -/
def Runner.tickOn (r : Runner) (frame : Frame) (owner : Bullet α) (x : Relay φ ρ) :
    Tick φ ρ α × Nat :=
  if r.isRunning then
    let r := r.bindTo owner.id
    let x := { x with left := r.budget }
    if r.root.isDone then
      ({ r with state := .completed }.rest owner x.factory x.source, x.left)
    else
      let o := r.root.advance ⟨r.builder, frame⟩ r.params
        (Turn.start owner x.factory x.source x.left r.last)
      (r.give o, o.turn.budget)
  else (r.rest owner x.factory x.source, x.left)

/-- The share of an entry, and what it hands on. -/
def Entry.share (frame : Frame) (e : Entry α) (x : Relay φ ρ) : Share α × Relay φ ρ :=
  match e.runner with
  | some r =>
    if r.isRunning then
      let (t, left) := r.tickOn frame e.bullet x
      (⟨⟨t.owner, some t.runner⟩, t.spawned, report e.bullet.id t⟩, ⟨t.factory, t.source, left⟩)
    else (⟨e, [], .nothing⟩, x)
  | none => (⟨e, [], .nothing⟩, x)

/-- The shares of entries that have their ticks one after the other. -/
def Swarm.shares (frame : Frame) :
    List (Entry α) → Relay φ ρ → List (Share α) × Relay φ ρ
  | [], x => ([], x)
  | e :: rest, x =>
    let (share, x) := e.share frame x
    let (shares, x) := shares frame rest x
    (share :: shares, x)

/-! ## What was left over does not show -/

/-- A pattern that takes over what was handed on has the tick that it has on its own. -/
theorem Runner.tickOn_fst (r : Runner) (frame : Frame) (owner : Bullet α) (x : Relay φ ρ) :
    (r.tickOn frame owner x).1 = r.tick frame owner x.factory x.source := by
  unfold tickOn tick
  split
  · simp only
    split <;> rfl
  · rfl

theorem Entry.share_eq_tick (frame : Frame) (e : Entry α) (x : Relay φ ρ) :
    let y := e.tick frame x.factory x.source
    (e.share frame x).1 = ⟨y.1, y.2.2.2.1, y.2.2.2.2⟩ ∧
      (e.share frame x).2.factory = y.2.1 ∧ (e.share frame x).2.source = y.2.2.1 := by
  unfold share tick
  cases e.runner with
  | none => exact ⟨rfl, rfl, rfl⟩
  | some r =>
    cases hrun : r.isRunning with
    | false => simp [hrun]
    | true => simp [hrun, r.tickOn_fst]

/-- An entry whose pattern is not running has no share, and hands on what it took over. -/
theorem Entry.share_of_rests (frame : Frame) {e : Entry α} (h : e.isRunning = false)
    (x : Relay φ ρ) : e.share frame x = (⟨e, [], .nothing⟩, x) := by
  unfold share
  unfold isRunning at h
  cases hr : e.runner with
  | none => rfl
  | some r =>
    rw [hr, Option.any_some] at h
    simp [h]

/-- A running pattern goes on after a tick, or comes to its end, which is reported. -/
theorem Runner.report_tick {r : Runner} (h : r.isRunning = true) (id : BulletId) (frame : Frame)
    (owner : Bullet α) (factory : φ) (source : ρ) :
    let t := r.tick frame owner factory source
    (t.runner.state = .running ∧ Entry.report id t = .nothing) ∨
    ∃ v : Verdict, t.runner.state = v.state ∧ Entry.report id t = v.report id := by
  by_cases hd : r.root.isDone = true
  · rw [tick_of_isDone h hd]
    exact .inr ⟨.completed, rfl, rfl⟩
  · rw [tick_of_turn h (by simpa using hd)]
    generalize r.root.advance ⟨r.builder, frame⟩ r.params (r.turn owner factory source) = o
    unfold give afterTurn Entry.report
    cases o.error with
    | some x => exact .inr ⟨.aborted x, rfl, rfl⟩
    | none =>
      by_cases hremoved : o.turn.removed = true
      · exact .inr ⟨.removed, by simp [stateAfter, hremoved, Verdict.state],
          by simp [hremoved, Verdict.report]⟩
      by_cases hdone : o.step.isDone = true
      · exact .inr ⟨.completed, by simp [stateAfter, hremoved, hdone, Verdict.state],
          by simp [stateAfter, hremoved, hdone, Verdict.report]⟩
      · exact .inl (by simp [stateAfter, hremoved, hdone])

theorem Entry.share_fares (frame : Frame) (e : Entry α) (x : Relay φ ρ) :
    e.Fares (e.share frame x).1 := by
  rw [(e.share_eq_tick frame x).1]
  rcases e.tick_cases frame x.factory x.source with ⟨hrest, ht⟩ | ⟨r, hr, hrun, ht⟩
  · rw [ht]
    exact .rests hrest
  · have hrunning : e.isRunning = true := by simp [isRunning, hr, hrun]
    have hid := (r.tick_steered frame e.bullet x.factory x.source).id
    simp only [ht]
    rcases r.report_tick hrun e.bullet.id frame e.bullet x.factory x.source with
      ⟨hs, hreport⟩ | ⟨v, hs, hreport⟩ <;> rw [hreport]
    · exact .goesOn hrunning hid hs
    · exact .ends v hrunning hid hs

/-- The iterations that were left over before an entry show in nothing but those that are left over
after it. -/
theorem Entry.share_congr (frame : Frame) (e : Entry α) {x y : Relay φ ρ} (h : x.SameHost y) :
    (e.share frame x).1 = (e.share frame y).1 ∧
      (e.share frame x).2.SameHost (e.share frame y).2 := by
  obtain ⟨hx, hfx, hsx⟩ := e.share_eq_tick frame x
  obtain ⟨hy, hfy, hsy⟩ := e.share_eq_tick frame y
  rw [h.1, h.2] at hx hfx hsx
  exact ⟨hx.trans hy.symm, hfx.trans hfy.symm, hsx.trans hsy.symm⟩

namespace Swarm

theorem shares_congr (frame : Frame) (entries : List (Entry α)) {x y : Relay φ ρ}
    (h : x.SameHost y) :
    (shares frame entries x).1 = (shares frame entries y).1 ∧
      (shares frame entries x).2.SameHost (shares frame entries y).2 := by
  induction entries generalizing x y with
  | nil => exact ⟨rfl, h⟩
  | cons e rest ih =>
    obtain ⟨he, hnext⟩ := e.share_congr frame h
    obtain ⟨hrest, hlast⟩ := ih hnext
    exact ⟨congrArg₂ List.cons he hrest, hlast⟩

theorem shares_append (frame : Frame) (before rest : List (Entry α)) (x : Relay φ ρ) :
    shares frame (before ++ rest) x
      = ((shares frame before x).1 ++ (shares frame rest (shares frame before x).2).1,
          (shares frame rest (shares frame before x).2).2) := by
  induction before generalizing x with
  | nil => rfl
  | cons e before ih => simp only [List.cons_append, shares, ih]

/-- The shares of entries before, at and after one of them. -/
theorem shares_middle (frame : Frame) (before : List (Entry α)) (e : Entry α)
    (after : List (Entry α)) (x : Relay φ ρ) :
    shares frame (before ++ e :: after) x
      = ((shares frame before x).1 ++ (e.share frame (shares frame before x).2).1
            :: (shares frame after (shares frame (before ++ [e]) x).2).1,
          (shares frame after (shares frame (before ++ [e]) x).2).2) := by
  rw [shares_append, shares_append]
  rfl

theorem length_shares (frame : Frame) (entries : List (Entry α)) (x : Relay φ ρ) :
    (shares frame entries x).1.length = entries.length := by
  induction entries generalizing x with
  | nil => rfl
  | cons e rest ih => exact congrArg Nat.succ (ih _)

/-- Each share is that of an entry, whatever it took over. -/
theorem exists_of_share {frame : Frame} {entries : List (Entry α)} {x : Relay φ ρ} {a : Share α}
    (h : a ∈ (shares frame entries x).1) :
    ∃ e ∈ entries, ∃ y : Relay φ ρ, a = (e.share frame y).1 := by
  induction entries generalizing x with
  | nil => cases h
  | cons e rest ih =>
    rcases List.mem_cons.1 h with rfl | h
    · exact ⟨e, List.mem_cons_self, x, rfl⟩
    · obtain ⟨e', he, y, rfl⟩ := ih h
      exact ⟨e', List.mem_cons_of_mem e he, y, rfl⟩

theorem shares_own (frame : Frame) (entries : List (Entry α)) (x : Relay φ ρ) :
    ∀ a ∈ (shares frame entries x).1, a.Own := by
  intro a ha
  obtain ⟨e, -, y, rfl⟩ := exists_of_share ha
  exact (e.share_fares frame y).own

theorem ids_shares (frame : Frame) (entries : List (Entry α)) (x : Relay φ ρ) :
    (shares frame entries x).1.map (·.entry.bullet.id) = entries.map (·.bullet.id) := by
  induction entries generalizing x with
  | nil => rfl
  | cons e rest ih => exact congrArg₂ List.cons (e.share_fares frame x).id (ih _)

/-- A pass is made of the shares of its entries. -/
theorem pass_eq_shares (frame : Frame) (entries : List (Entry α)) (x : Relay φ ρ) :
    let shares := (shares frame entries x).1
    pass frame entries x.factory x.source
      = ⟨shares.map (·.entry), (Swarm.shares frame entries x).2.factory,
          (Swarm.shares frame entries x).2.source, shares.flatMap (·.spawned),
          ⟨shares.flatMap (·.report.spawned), shares.flatMap (·.report.removed),
            shares.flatMap (·.report.completed), shares.flatMap (·.report.aborted)⟩⟩ := by
  induction entries generalizing x with
  | nil => rfl
  | cons e rest ih =>
    obtain ⟨hshare, hfactory, hsource⟩ := e.share_eq_tick frame x
    have hrest := ih (e.share frame x).2
    rw [hfactory, hsource] at hrest
    simp only [pass, shares, hrest, hshare, List.map_cons, List.flatMap_cons, Report.append]

/-- A tick of a swarm is made of the shares of its entries, whatever was left over before it. -/
theorem tick_eq_shares (s : Swarm α) (frame : Frame) (x : Relay φ ρ) :
    s.tick frame x.factory x.source
      = ⟨ofShares (shares frame s.entries x).1, (shares frame s.entries x).2.factory,
          (shares frame s.entries x).2.source, .ofShares (shares frame s.entries x).1⟩ := by
  have hpass := pass_eq_shares frame s.entries x
  have hquiet := pass_report_spawned frame s.entries x.factory x.source
  rw [hpass] at hquiet
  have hentries := s.entries_tick frame x.factory x.source
  rw [hpass, List.map_flatMap] at hentries
  unfold tick at hentries ⊢
  rw [hpass] at hentries ⊢
  simp only [Ticked.mk.injEq]
  refine ⟨congrArg Swarm.mk hentries, trivial, trivial, ?_⟩
  rw [foldr_joinReport, List.map_flatMap, List.flatMap_assoc, Report.append, hquiet]
  simp only [List.nil_append, List.append_nil]
  rfl

/-- The bullets of a tick are those of the entries and those that join because of their shares. -/
theorem ids_append_spawned (s : Swarm α) (frame : Frame) (x : Relay φ ρ) :
    s.ids ++ (s.tick frame x.factory x.source).report.spawned
      = (shares frame s.entries x).1.map (·.entry.bullet.id)
        ++ (shares frame s.entries x).1.flatMap Share.joined := by
  rw [tick_eq_shares, ids, ← ids_shares frame s.entries x]
  rfl

end Swarm

end Ticks

end Barrage
