import Barrage.Runner.Family
import Barrage.Swarm.History
import Barrage.Swarm.Share

/-!
# Swarms of closed runners

* `Swarm.Hosts`: the swarms that hosts can come by if they insert only patterns with a property.
* `Swarm.Closed`, `Share.Closed`: all patterns of a swarm are closed, and so is all that comes of one.
* `Swarm.Closed.call`, `Swarm.Hosts.closed`: if hosts insert only closed patterns, there are no others.
* `Swarm.Closed.aborted`: such a swarm reports a pattern only if it could not evaluate a formula, and a
  bullet only if its pattern met a limit.
-/

namespace Barrage

variable {φ ρ α : Type}

namespace Swarm

/-- A call inserts only patterns with a property. -/
def Call.Inserts (P : Runner → Prop) : Call φ ρ α → Prop
  | insert _ runner => ∀ r, runner = some r → P r
  | tick _ _ _ | remove _ | modify _ _ | modifyAll _ => True

theorem Call.Inserts.mono {P Q : Runner → Prop} {c : Call φ ρ α} (h : c.Inserts P)
    (hPQ : ∀ r, P r → Q r) : c.Inserts Q := by
  cases c with
  | insert _ runner => exact fun r hr => hPQ r (h r hr)
  | tick _ _ _ | remove _ | modify _ _ | modifyAll _ => trivial

/-- The swarms that hosts can come by if they insert only patterns with a property. The hosts may be of
different types, and bullets need not be distinct. -/
inductive Hosts {α : Type} (P : Runner → Prop) : Swarm α → Prop where
  | empty : Hosts P empty
  | call {φ ρ : Type} [RandomSource ρ] [BulletFactory φ α] {s : Swarm α} (c : Call φ ρ α)
    (hc : c.Inserts P) : Hosts P s → Hosts P (c.run s)

/-- All patterns of a swarm are closed. -/
def Closed (s : Swarm α) : Prop := ∀ e ∈ s.entries, ∀ r, e.runner = some r → r.Closed

end Swarm

/-- A share of an entry whose pattern is closed. -/
structure Share.Closed (a : Share α) : Prop where
  entry : ∀ r, a.entry.runner = some r → r.Closed
  made : ∀ w ∈ a.spawned, ∀ r, w.runner = some r → r.Closed
  aborted : ∀ line ∈ a.report.aborted, line.2.isEvaluation = true
  faults : ∀ line ∈ a.faults, line.2.isLimit = true

theorem Entry.report_aborted {id : BulletId} {t : Tick φ ρ α} {line : BulletId × StepError}
    (h : line ∈ (report id t).aborted) : t.failure = some line.2 := by
  unfold report at h
  split at h
  · next x hx =>
    obtain rfl := List.mem_singleton.1 h
    exact hx
  · split at h
    · cases h
    · split at h <;> cases h

variable [RandomSource ρ] [BulletFactory φ α]

theorem Entry.share_closed {e : Entry α} (h : ∀ r, e.runner = some r → r.Closed) (frame : Frame)
    (x : Relay φ ρ) : (e.share frame x).1.Closed := by
  rw [(e.share_eq_tick frame x).1]
  rcases e.tick_cases frame x.factory x.source with ⟨-, ht⟩ | ⟨r, hr, -, ht⟩ <;> simp only [ht]
  · exact ⟨h, List.forall_mem_nil _, List.forall_mem_nil _, List.forall_mem_nil _⟩
  · have hmade {w : Spawn α} (hw : w ∈ (r.tick frame e.bullet x.factory x.source).spawned) :=
      (h r hr).made frame e.bullet x.factory x.source hw
    refine ⟨fun r' hr' => ?_, fun w hw => (hmade hw).1, fun line hline => ?_, fun line hline => ?_⟩
    · obtain rfl := Option.some.inj hr'
      exact (h r hr).call (.tick frame e.bullet x.factory x.source)
    · exact r.tick_failure frame e.bullet x.factory x.source (report_aborted hline)
    · obtain ⟨w, hw, hline⟩ := List.mem_flatMap.1 hline
      obtain ⟨y, hy, rfl⟩ := List.mem_map.1 hline
      exact (hmade hw).2 y (Option.mem_toList.1 hy)

namespace Swarm

/-- The shares of closed patterns are closed. -/
theorem Closed.shares {s : Swarm α} (h : s.Closed) (frame : Frame) (x : Relay φ ρ) :
    ∀ a ∈ (shares frame s.entries x).1, a.Closed := by
  intro a ha
  obtain ⟨e, he, y, rfl⟩ := exists_of_share ha
  exact e.share_closed (h e he) frame y

omit [RandomSource ρ] [BulletFactory φ α] in
theorem closed_ofShares {shares : List (Share α)} (h : ∀ a ∈ shares, a.Closed) :
    (ofShares shares).Closed := by
  intro e he r hr
  rcases List.mem_append.1 he with he | he
  · obtain ⟨a, ha, rfl⟩ := List.mem_map.1 (List.mem_filter.1 he).1
    exact (h a ha).entry r hr
  · obtain ⟨a, ha, he⟩ := List.mem_flatMap.1 he
    obtain ⟨w, hw, rfl⟩ := List.mem_map.1 he
    obtain ⟨r', hr', rfl⟩ := Option.map_eq_some_iff.1 hr
    exact ((h a ha).made w hw r' hr').bind w.bullet.id

/-- A swarm of closed patterns reports a pattern only if it could not evaluate a formula, and a bullet
only if its pattern met a limit. -/
theorem Closed.aborted {s : Swarm α} (h : s.Closed) (frame : Frame) (factory : φ) (source : ρ) :
    ∀ line ∈ (s.tick frame factory source).report.aborted,
      line.2.isEvaluation = true ∨ line.2.isLimit = true := by
  intro line hline
  have hshares := h.shares frame (⟨factory, source, 0⟩ : Relay φ ρ)
  have htick : s.tick frame factory source = _ := s.tick_eq_shares frame ⟨factory, source, 0⟩
  rw [htick] at hline
  rcases List.mem_append.1 hline with hline | hline
  · obtain ⟨a, ha, hline⟩ := List.mem_flatMap.1 hline
    exact .inl ((hshares a ha).aborted line hline)
  · obtain ⟨a, ha, hline⟩ := List.mem_flatMap.1 hline
    exact .inr ((hshares a ha).faults line hline)

/-- A call that inserts only closed patterns leaves a swarm of closed patterns. -/
theorem Closed.call {s : Swarm α} (h : s.Closed) {c : Call φ ρ α} (hc : c.Inserts Runner.Closed) :
    (c.run s).Closed := by
  cases c with
  | insert bullet runner =>
    intro e he r hr
    rcases List.mem_append.1 he with he | he
    · exact h e he r hr
    · obtain rfl := List.mem_singleton.1 he
      obtain ⟨r', hr', rfl⟩ := Option.map_eq_some_iff.1 hr
      exact (hc r' hr').bind bullet.id
  | tick frame factory source =>
    have htick : s.tick frame factory source = _ := s.tick_eq_shares frame ⟨factory, source, 0⟩
    show (s.tick frame factory source).swarm.Closed
    rw [htick]
    exact closed_ofShares (h.shares frame _)
  | remove id => exact fun e he => h e (List.mem_of_mem_eraseP he)
  | modify id f =>
    exact forall_of_map (P := fun runner : Option Runner => ∀ r, runner = some r → r.Closed)
      (map_modifyFirst (fun _ => rfl) id s.entries) h
  | modifyAll f =>
    exact forall_of_map (P := fun runner : Option Runner => ∀ r, runner = some r → r.Closed)
      (map_modifyAll (fun _ => rfl) s) h

omit [RandomSource ρ] [BulletFactory φ α] in
/-- If hosts insert only closed patterns, there are no others. -/
theorem Hosts.closed {P : Runner → Prop} {s : Swarm α} (h : s.Hosts P)
    (hP : ∀ r, P r → r.Closed) : s.Closed := by
  induction h with
  | empty => exact List.forall_mem_nil _
  | call c hc _ ih => exact ih.call (hc.mono hP)

end Swarm

end Barrage
