import Barrage.Proofs.Swarm.Isolation
import Barrage.Swarm.Course

/-!
# The end of a pattern is reported once

* `Swarm.tick_of_rests`: a tick leaves an entry alone whose pattern is not running, and goes on as if it
  were not there.
* `outcomes_told_once`: after any calls of hosts that insert running patterns, a pattern is running and not
  reported until it comes to its end in a tick, which is reported once and in one way, and never again.
-/

namespace Barrage

variable {α : Type}

/-- An entry that has no share, and has not vanished, stays among the others. -/
theorem Swarm.ofShares_of_rests {e : Entry α} (hv : e.hasVanished = false)
    (before after : List (Share α)) :
    ∃ first last, (ofShares (before ++ ⟨e, [], .nothing⟩ :: after)).entries = first ++ e :: last ∧
      (ofShares (before ++ after)).entries = first ++ last := by
  refine ⟨(before.map (·.entry)).filter fun e => !e.hasVanished,
    (after.map (·.entry)).filter (fun e => !e.hasVanished)
      ++ (before ++ after).flatMap fun a => a.spawned.map Spawn.entry, ?_, ?_⟩
  · simp [ofShares, hv]
  · simp [ofShares]

theorem Report.ofShares_of_rests (e : Entry α) (before after : List (Share α)) :
    ofShares (before ++ ⟨e, [], .nothing⟩ :: after) = ofShares (before ++ after) := by
  simp [ofShares, Share.joined, Share.faults, nothing]

/-- A tick leaves an entry alone whose pattern is not running and has not vanished, and goes on as if it
were not there. -/
theorem Swarm.tick_of_rests {φ ρ : Type} [RandomSource ρ] [BulletFactory φ α] {e : Entry α}
    (h : e.isRunning = false) (hv : e.hasVanished = false) (before after : List (Entry α))
    (frame : Frame) (factory : φ) (source : ρ) :
    let t := Swarm.tick ⟨before ++ e :: after⟩ frame factory source
    let t' := Swarm.tick ⟨before ++ after⟩ frame factory source
    t.factory = t'.factory ∧ t.source = t'.source ∧ t.report = t'.report ∧
      ∃ first last, t.swarm.entries = first ++ e :: last ∧ t'.swarm.entries = first ++ last := by
  intro t t'
  let x : Relay φ ρ := ⟨factory, source, 0⟩
  have ht : t = _ := tick_eq_shares ⟨before ++ e :: after⟩ frame x
  have ht' : t' = _ := tick_eq_shares ⟨before ++ after⟩ frame x
  have hhere : (shares frame (before ++ [e]) x).2 = (shares frame before x).2 := by
    rw [shares_append, shares, e.share_of_rests frame h]
    rfl
  rw [shares_middle, hhere, e.share_of_rests frame h] at ht
  rw [shares_append] at ht'
  rw [ht, ht']
  exact ⟨rfl, rfl, Report.ofShares_of_rests e _ _, ofShares_of_rests hv _ _⟩

/-- Of a bullet that was made a host is told only why its pattern could not be built, and that pattern is
running if there is one. -/
theorem Swarm.told_of_made {φ ρ : Type} [RandomSource ρ] [BulletFactory φ α] {s : Swarm α}
    {frame : Frame} {factory : φ} {source : ρ}
    (hnodup : (s.ids ++ (s.tick frame factory source).report.spawned).Nodup) {w : Spawn α}
    (hw : w ∈ (pass frame s.entries factory source).spawned) :
    (s.tick frame factory source).report.told w.bullet.id = w.fault.toList.map .aborted ∧
      (s.tick frame factory source).swarm.runs w.bullet.id = w.runner.isSome ∧
      (w.runner ≠ none → w.fault = none) := by
  obtain ⟨-, -, r, -, hmade⟩ := (s.spawned_eq_creations frame factory source).2 w hw
  rw [s.ids_append_spawned frame ⟨factory, source, 0⟩] at hnodup
  have hown := shares_own frame s.entries (⟨factory, source, 0⟩ : Relay φ ρ)
  have htick := s.tick_eq_shares frame (⟨factory, source, 0⟩ : Relay φ ρ)
  have hpass := pass_eq_shares frame s.entries (⟨factory, source, 0⟩ : Relay φ ρ)
  simp only at htick hpass
  rw [hpass] at hw
  rw [htick]
  refine ⟨Report.told_of_spawn hown hnodup hw, ?_, fun hsome => ?_⟩
  · refine (runs_of_mem (ofShares_nodup hnodup) (made_mem_ofShares hw)).trans ?_
    unfold Entry.isRunning Spawn.entry
    cases hr : w.runner with
    | none => rfl
    | some r' => exact (hmade.isRunning hr).1
  · obtain ⟨r', hr⟩ := Option.ne_none_iff_exists'.1 hsome
    exact (hmade.isRunning hr).2

variable {ms₀ : List (Moment α)} {s : Swarm α}

/-- Hosts insert running patterns, or none, and call a swarm in any order, while its bullets are
distinct.

As long as a bullet is there after that, its pattern goes on and is not reported, until its host takes it
out; or its end is reported once and in one way, in the tick in which it comes to it, and never before or
after. If the pattern is not running, nothing is reported, and the bullet stays until its host takes it out.

In a tick the reason why a pattern could not be built is reported once, of the bullet that was made.
Nothing else is reported of bullets that were made, and nothing of those that are not there. An entry
whose pattern is not running is left alone, and the tick goes on as if it were not there. -/
theorem outcomes_told_once
    (h₀ : Swarm.Course (fun r => r.isRunning = true) .empty ms₀ s) :
    (∀ (ms : List (Moment α)) (s' : Swarm α) (id : BulletId),
      Swarm.Course (fun r => r.isRunning = true) s ms s' → (∀ m ∈ ms, id ∈ m.before.ids) →
      (s.runs id = true →
        (∀ m ∈ ms, m.Keeps id true) ∨
        ∃ ms₁ m ms₂ v, ms = ms₁ ++ m :: ms₂ ∧
          (∀ m' ∈ ms₁, m'.report.told id = [] ∧ m'.after.runs id = true) ∧
          (m.kind = .tick ∧ m.report.told id = [v] ∧ m.after.Ended id v) ∧
          ∀ m' ∈ ms₂, m'.Keeps id false) ∧
      (s.runs id = false → ∀ m ∈ ms, m.Keeps id false)) ∧
    ∀ {φ ρ : Type} [RandomSource ρ] [BulletFactory φ α] (frame : Frame) (factory : φ) (source : ρ),
      let t := s.tick frame factory source
      (s.ids ++ t.report.spawned).Nodup →
      (∀ w ∈ (Swarm.pass frame s.entries factory source).spawned,
        t.report.told w.bullet.id = w.fault.toList.map .aborted ∧
        t.swarm.runs w.bullet.id = w.runner.isSome ∧ (w.runner ≠ none → w.fault = none)) ∧
      (∀ id, id ∉ s.ids ++ t.report.spawned → t.report.told id = []) ∧
      ∀ before e after, s.entries = before ++ e :: after → e.isRunning = false →
        let t' := Swarm.tick ⟨before ++ after⟩ frame factory source
        t.factory = t'.factory ∧ t.source = t'.source ∧ t.report = t'.report ∧
          ∃ first last, t.swarm.entries = first ++ e :: last ∧ t'.swarm.entries = first ++ last := by
  have hs : ∃ ids, s.Mirrored (fun r => r.isRunning = true) ids := h₀.mirrored ⟨_, .empty⟩
  refine ⟨fun ms s' id h hlife => ⟨?_, ?_⟩, ?_⟩
  · exact h.told_of_runs (fun _ hr => hr) hs hlife
  · exact h.told_of_not_runs (fun _ hr => hr) hs hlife
  · intro φ ρ _ _ frame factory source t hnodup
    obtain ⟨ids, hs⟩ := hs
    obtain ⟨-, hpresent⟩ := hs.isSound fun _ hr => hr
    refine ⟨fun w hw => ?_, fun id hid => ?_, fun before e after he hrest => ?_⟩
    · exact Swarm.told_of_made hnodup hw
    · rw [s.ids_append_spawned frame ⟨factory, source, 0⟩] at hid
      have ht : t = _ := s.tick_eq_shares frame (⟨factory, source, 0⟩ : Relay φ ρ)
      rw [ht]
      exact Report.told_of_absent (Swarm.shares_own frame s.entries _) hid
    · have hrests := Swarm.tick_of_rests hrest (hpresent e (by simp [he])) before after frame factory
        source
      rw [← he] at hrests
      exact hrests

/-- If the first of some calls says how a pattern came to its end, it did so in that call. -/
theorem Moment.ended_of_told {m : Moment α} {ms : List (Moment α)} {id : BulletId} {v : Verdict}
    (htold : m.report.told id = [v])
    (h : (∀ m' ∈ m :: ms, m'.Keeps id true) ∨
      ∃ ms₁ m₁ ms₂ v', m :: ms = ms₁ ++ m₁ :: ms₂ ∧
        (∀ m' ∈ ms₁, m'.report.told id = [] ∧ m'.after.runs id = true) ∧
        (m₁.kind = .tick ∧ m₁.report.told id = [v'] ∧ m₁.after.Ended id v') ∧
        ∀ m' ∈ ms₂, m'.Keeps id false) :
    m.after.Ended id v ∧ ∀ m' ∈ ms, m'.Keeps id false := by
  have hnot : ¬ m.report.told id = [] := by
    rw [htold]
    exact List.cons_ne_nil _ _
  rcases h with hall | ⟨ms₁, m₁, ms₂, v', hsplit, hbefore, ⟨-, hv, hended⟩, hrest⟩
  · exact absurd (hall m List.mem_cons_self).1 hnot
  · cases ms₁ with
    | nil =>
      obtain ⟨rfl, rfl⟩ := List.cons.inj hsplit
      obtain rfl := List.singleton_inj.1 (htold.symm.trans hv)
      exact ⟨hended, hrest⟩
    | cons m₀ _ =>
      obtain ⟨rfl, -⟩ := List.cons.inj hsplit
      exact absurd (hbefore m List.mem_cons_self).1 hnot

/-- A pattern that fails at once. -/
def dividing : Action Node := ⟨none, [.wait (.binary .div (.number 1) (.number 0))]⟩

/-- Three bullets that came one after the other. -/
def Swarm.three (r r' r'' : Runner) : Swarm (Option String) :=
  ((empty.insert LabelledBullet.first (some r)).insert { LabelledBullet.first with id := ⟨8⟩ }
    (some r')).insert { LabelledBullet.first with id := ⟨9⟩ } (some r'')

/-- What becomes of three bullets is a course that starts with none. -/
theorem Swarm.course_three {r r' r'' : Runner} (h : r.isRunning = true) (h' : r'.isRunning = true)
    (h'' : r''.isRunning = true) {ms : List (Moment (Option String))} {s : Swarm (Option String)}
    (hrest : Course (fun r => r.isRunning = true) (three r r' r'') ms s) :
    ∃ ms₀, Course (fun r => r.isRunning = true) empty ms₀ s := by
  have hfits {b : LabelledBullet} {r : Runner} {t : Swarm (Option String)} (hr : r.isRunning = true)
      (hb : b.id ∉ t.ids) :
      (Call.insert b (some r) : Call Foundry Tape _).Fits (fun r => r.isRunning = true) t := by
    refine ⟨hb, fun r' hsome => ?_⟩
    obtain rfl := Option.some.inj hsome
    exact hr
  refine ⟨_, .call (.insert LabelledBullet.first (some r) : Call Foundry Tape _) (hfits h ?_)
    (.call (.insert { LabelledBullet.first with id := ⟨8⟩ } (some r') : Call Foundry Tape _)
      (hfits h' ?_)
      (.call (.insert { LabelledBullet.first with id := ⟨9⟩ } (some r'') : Call Foundry Tape _)
        (hfits h'' ?_) hrest))⟩
  · exact List.not_mem_nil
  · show (⟨8⟩ : BulletId) ∉ [⟨1⟩]
    decide
  · show (⟨9⟩ : BulletId) ∉ [⟨1⟩, ⟨8⟩]
    decide

set_option maxRecDepth 10000 in
/-- Of three patterns one makes a bullet and is done, one removes its bullet and one fails. Each is reported
in the first tick in its own way, and none in the second. -/
theorem outcomes_told_once_three :
    ∃ r r' r'' : Runner, Runner.ofAction (.bare .standard) oneShot [] = .ok r ∧
      Runner.ofAction (.bare .standard) vanishing [] = .ok r' ∧
      Runner.ofAction (.bare .standard) dividing [] = .ok r'' ∧
      let t := (Swarm.three r r' r'').quietTick
      (t.report.told ⟨1⟩ = [.completed] ∧ t.swarm.Ended ⟨1⟩ .completed) ∧
        (t.report.told ⟨8⟩ = [.removed] ∧ t.swarm.Ended ⟨8⟩ .removed) ∧
        (t.report.told ⟨9⟩ = [.aborted (.evaluation .divisionByZero)] ∧
          t.swarm.Ended ⟨9⟩ (.aborted (.evaluation .divisionByZero))) ∧
        ∀ id ∈ [⟨1⟩, ⟨8⟩, ⟨9⟩], t.swarm.quietTick.report.told id = [] := by
  obtain ⟨r, hr⟩ : ∃ r, Runner.ofAction (.bare .standard) oneShot [] = .ok r := ⟨_, rfl⟩
  obtain ⟨r', hr'⟩ : ∃ r, Runner.ofAction (.bare .standard) vanishing [] = .ok r := ⟨_, rfl⟩
  obtain ⟨r'', hr''⟩ : ∃ r, Runner.ofAction (.bare .standard) dividing [] = .ok r := ⟨_, rfl⟩
  have hrunning : r.isRunning = true ∧ r'.isRunning = true ∧ r''.isRunning = true := by
    cases hr
    cases hr'
    cases hr''
    decide
  have hstart : (∀ id ∈ [⟨1⟩, ⟨8⟩, ⟨9⟩], id ∈ (Swarm.three r r' r'').ids ∧
        (Swarm.three r r' r'').runs id = true) ∧
      ((Swarm.three r r' r'').ids ++ (Swarm.three r r' r'').quietTick.report.spawned).Nodup ∧
      (Swarm.three r r' r'').quietTick.swarm.ids = [⟨1⟩, ⟨9⟩, ⟨2⟩] ∧
      (Swarm.three r r' r'').quietTick.swarm.quietTick.report.spawned = [] := by
    cases hr
    cases hr'
    cases hr''
    decide
  have htold : (Swarm.three r r' r'').quietTick.report.told ⟨1⟩ = [.completed] ∧
      (Swarm.three r r' r'').quietTick.report.told ⟨8⟩ = [.removed] ∧
      (Swarm.three r r' r'').quietTick.report.told ⟨9⟩
        = [.aborted (.evaluation .divisionByZero)] := by
    cases hr
    cases hr'
    cases hr''
    decide
  obtain ⟨hrun, hrun', hrun''⟩ := hrunning
  obtain ⟨hthere, hnodup, hafter, hspawned⟩ := hstart
  obtain ⟨htold, htold', htold''⟩ := htold
  refine ⟨r, r', r'', hr, hr', hr'', ?_⟩
  generalize hs : Swarm.three r r' r'' = s at *
  intro t
  -- The first tick and the second.
  let m := Swarm.quietCall.moment s
  let m' := Swarm.quietCall.moment t.swarm
  have hfits : Swarm.quietCall.Fits (fun r => r.isRunning = true) s := hnodup
  have hfits' : Swarm.quietCall.Fits (fun r => r.isRunning = true) t.swarm := by
    show (t.swarm.ids ++ t.swarm.quietTick.report.spawned).Nodup
    rw [hafter, hspawned]
    decide
  have hcourse {ms : List (Moment (Option String))} {s' : Swarm (Option String)}
      (h : Swarm.Course (fun r => r.isRunning = true) s ms s') :
      ∃ ms₀, Swarm.Course (fun r => r.isRunning = true) .empty ms₀ s' := by
    rw [← hs] at h
    exact Swarm.course_three hrun hrun' hrun'' h
  obtain ⟨ms₀, hfirst⟩ := hcourse .nil
  obtain ⟨ms₁, hsecond⟩ := hcourse (.call Swarm.quietCall hfits .nil)
  obtain ⟨hends, -⟩ := outcomes_told_once hfirst
  obtain ⟨-, hquiet⟩ := outcomes_told_once hsecond
  obtain ⟨-, habsent, -⟩ := hquiet ⟨1, ⟨0, -100⟩, 0⟩ Foundry.plain (⟨[], 0⟩ : Tape) hfits'
  have hend {id : BulletId} {v : Verdict} (hid : id ∈ [⟨1⟩, ⟨8⟩, ⟨9⟩])
      (h : t.report.told id = [v]) {ms : List (Moment (Option String))} {s' : Swarm (Option String)}
      (hms : Swarm.Course (fun r => r.isRunning = true) t.swarm ms s')
      (hlife : ∀ m ∈ ms, id ∈ m.before.ids) :
      t.swarm.Ended id v ∧ ∀ m ∈ ms, m.Keeps id false := by
    obtain ⟨hmem, hruns⟩ := hthere id hid
    obtain ⟨hgone, -⟩ := hends (m :: ms) s' id (.call Swarm.quietCall hfits hms)
      (List.forall_mem_cons.2 ⟨hmem, hlife⟩)
    exact Moment.ended_of_told h (hgone hruns)
  have hnext (id : BulletId) (hid : id ∈ t.swarm.ids) : ∀ m₁ ∈ [m'], id ∈ m₁.before.ids :=
    List.forall_mem_singleton.2 hid
  have hcall : Swarm.Course (fun r => r.isRunning = true) t.swarm [m'] _ :=
    .call Swarm.quietCall hfits' .nil
  obtain ⟨hended, hsilent⟩ := hend (by decide) htold hcall (hnext ⟨1⟩ (by rw [hafter]; decide))
  obtain ⟨hended', -⟩ := hend (by decide) htold' .nil (List.forall_mem_nil _)
  obtain ⟨hended'', hsilent''⟩ :=
    hend (by decide) htold'' hcall (hnext ⟨9⟩ (by rw [hafter]; decide))
  -- The second bullet is gone after the first tick, so the second tick is about a bullet that is not there.
  have hsilent' : t.swarm.quietTick.report.told ⟨8⟩ = [] := by
    refine habsent ⟨8⟩ ?_
    show _ ∉ t.swarm.ids ++ t.swarm.quietTick.report.spawned
    rw [hafter, hspawned]
    decide
  refine ⟨⟨htold, hended⟩, ⟨htold', hended'⟩, ⟨htold'', hended''⟩, ?_⟩
  simp only [List.forall_mem_cons, List.not_mem_nil, false_imp_iff, implies_true, and_true]
  exact ⟨(hsilent m' List.mem_cons_self).1, hsilent', (hsilent'' m' List.mem_cons_self).1⟩

end Barrage
