import Barrage.Proofs.Swarm.Removal
import Barrage.Swarm.Share
import Mathlib.Data.List.Nodup
import Mathlib.Data.List.Perm.Basic

/-!
# Patterns do not meddle with one another

* `Report.without`, `Swarm.without`: what is left when all about some bullets is struck out.
* `Swarm.ofShares_without`: striking out the bullets of one share leaves the others.
* `entries_isolated`: two swarms that differ in one entry have the same tick but for the share of that
  entry, if it leaves the host in the same state.
-/

namespace Barrage

variable {φ ρ α : Type}

/-- Whose bullets a share is about: that of its entry and those that were made. -/
def Share.ids (a : Share α) : List BulletId := a.entry.bullet.id :: a.joined

/-- A report without what it says of some bullets. -/
def Report.without (ids : List BulletId) (r : Report) : Report :=
  ⟨r.spawned.filter (· ∉ ids), r.removed.filter (· ∉ ids), r.completed.filter (· ∉ ids),
    r.aborted.filter (·.1 ∉ ids)⟩

/-- A swarm without some bullets. -/
def Swarm.without (ids : List BulletId) (s : Swarm α) : Swarm α :=
  ⟨s.entries.filter (·.bullet.id ∉ ids)⟩

/-! ## Striking out one share -/

section Middle

variable {before after : List (Share α)} {a : Share α}
  (hothers : ∀ b ∈ before ++ after, ∀ id ∈ b.ids, id ∉ a.ids)

include hothers

/-- If what comes of each share is about its bullets, striking out the bullets of one leaves what comes
of the others. -/
theorem filter_flatMap_shares {γ : Type} {f : Share α → List γ} {about : γ → BulletId}
    (hf : ∀ b ∈ before ++ a :: after, ∀ y ∈ f b, about y ∈ b.ids) :
    ((before ++ a :: after).flatMap f).filter (about · ∉ a.ids) = (before ++ after).flatMap f := by
  have hkept {l : List (Share α)} (hl : ∀ b ∈ l, b ∈ before ++ after)
      (hl' : ∀ b ∈ l, b ∈ before ++ a :: after) :
      (l.flatMap f).filter (about · ∉ a.ids) = l.flatMap f := by
    refine List.filter_eq_self.2 fun y hy => ?_
    obtain ⟨b, hb, hy⟩ := List.mem_flatMap.1 hy
    exact decide_eq_true (hothers b (hl b hb) _ (hf b (hl' b hb) y hy))
  have hgone : (f a).filter (about · ∉ a.ids) = [] :=
    List.filter_eq_nil_iff.2 fun y hy => by simp [hf a (by simp) y hy]
  rw [List.flatMap_append, List.flatMap_cons, List.filter_append, List.filter_append, hgone,
    List.nil_append, hkept (fun b hb => List.mem_append_left _ hb) fun b hb => by simp [hb],
    hkept (fun b hb => List.mem_append_right _ hb) fun b hb => by simp [hb], List.flatMap_append]

/-- A swarm without the bullets of one share is left by the others. -/
theorem Swarm.ofShares_without :
    (ofShares (before ++ a :: after)).without a.ids = ofShares (before ++ after) := by
  have hentries : ((before ++ a :: after).map (·.entry)).filter (·.bullet.id ∉ a.ids)
      = (before ++ after).map (·.entry) := by
    rw [List.map_eq_flatMap, List.map_eq_flatMap]
    refine filter_flatMap_shares hothers fun b _ e he => ?_
    obtain rfl := List.mem_singleton.1 he
    exact List.mem_cons_self
  have hjoined : ((before ++ a :: after).flatMap fun b => b.spawned.map Spawn.entry).filter
      (·.bullet.id ∉ a.ids) = (before ++ after).flatMap fun b => b.spawned.map Spawn.entry := by
    refine filter_flatMap_shares hothers fun b _ e he => ?_
    obtain ⟨w, hw, rfl⟩ := List.mem_map.1 he
    exact List.mem_cons_of_mem _ (List.mem_map_of_mem hw)
  unfold without ofShares
  rw [List.filter_append, List.filter_comm, hentries, hjoined]

/-- A report without what it says of the bullets of one share is that of the others. -/
theorem Report.ofShares_without (hown : ∀ b ∈ before ++ a :: after, b.Own) :
    (ofShares (before ++ a :: after)).without a.ids = ofShares (before ++ after) := by
  have hmem {b : Share α} {id : BulletId} (h : id = b.entry.bullet.id) : id ∈ b.ids :=
    h ▸ List.mem_cons_self
  unfold without ofShares
  rw [List.filter_append]
  rw [filter_flatMap_shares hothers fun b _ id hid => List.mem_cons_of_mem _ hid,
    filter_flatMap_shares hothers fun b hb id hid => hmem ((hown b hb).removed id hid),
    filter_flatMap_shares hothers fun b hb id hid => hmem ((hown b hb).completed id hid),
    filter_flatMap_shares hothers fun b hb line hl => hmem ((hown b hb).aborted line hl),
    filter_flatMap_shares hothers fun b _ line hl =>
      List.mem_cons_of_mem _ (b.mem_faults hl)]

end Middle

section Ticks

variable [RandomSource ρ] [BulletFactory φ α] {frame : Frame} {x : Relay φ ρ}

/-- If all bullets of a tick are distinct, no two shares are about the same bullet. -/
theorem Swarm.shares_disjoint {s : Swarm α} {before after : List (Share α)} {a : Share α}
    (hs : (shares frame s.entries x).1 = before ++ a :: after)
    (hnodup : (s.ids ++ (s.tick frame x.factory x.source).report.spawned).Nodup) :
    ∀ b ∈ before ++ after, ∀ id ∈ b.ids, id ∉ a.ids := by
  rw [ids_append_spawned, hs] at hnodup
  have hall := (List.map_append_flatMap_perm _ _ _).nodup_iff.1 hnodup
  -- Sharing no bullet is symmetric, so the one share may be put in front.
  have hsymm {b c : Share α} (h : List.Disjoint b.ids c.ids) : List.Disjoint c.ids b.ids := by
    intro id hc hb
    exact h hb hc
  have hapart := (List.pairwise_middle hsymm).1 (List.nodup_flatMap.1 hall).2
  intro b hb id hid hida
  exact List.rel_of_pairwise_cons hapart hb hida hid

/-- Striking out the bullets of one entry leaves what comes of the shares of the others. -/
theorem Swarm.tick_without {s : Swarm α} {before after : List (Share α)} {a : Share α}
    (hs : (shares frame s.entries x).1 = before ++ a :: after)
    (hnodup : (s.ids ++ (s.tick frame x.factory x.source).report.spawned).Nodup) :
    (s.tick frame x.factory x.source).swarm.without a.ids = ofShares (before ++ after) ∧
      (s.tick frame x.factory x.source).report.without a.ids = .ofShares (before ++ after) := by
  have hothers := shares_disjoint hs hnodup
  have hown := shares_own frame s.entries x
  rw [hs] at hown
  rw [tick_eq_shares, hs]
  exact ⟨ofShares_without hothers, Report.ofShares_without hothers hown⟩

/-- Two swarms that agree in all entries but one are ticked on frames that agree, whatever was left over
before. If that entry leaves the factory and the random source in the same state, every other entry has
the same share in both ticks: it becomes the same, makes the same bullets and is reported in the same
way. Both ticks are made of the shares, in order, and leave the host in the same state.

If all bullets of each tick are distinct, the swarms and the reports are the same once all about the one
entry and the bullets that it made is struck out. -/
theorem entries_isolated (before after : List (Entry α)) (e e' : Entry α) (frame : Frame)
    (x x' : Relay φ ρ) (hhost : x.SameHost x')
    (hthere : (Swarm.shares frame (before ++ [e]) x).2.SameHost
      (Swarm.shares frame (before ++ [e']) x').2) :
    let s : Swarm α := ⟨before ++ e :: after⟩
    let s' : Swarm α := ⟨before ++ e' :: after⟩
    let t := s.tick frame x.factory x.source
    let t' := s'.tick frame x'.factory x'.source
    ∃ (first last : List (Share α)) (a a' : Share α),
      first.length = before.length ∧ last.length = after.length ∧
      a.entry.bullet.id = e.bullet.id ∧ a'.entry.bullet.id = e'.bullet.id ∧
      (Swarm.shares frame s.entries x).1 = first ++ a :: last ∧
      (Swarm.shares frame s'.entries x').1 = first ++ a' :: last ∧
      (t.swarm = .ofShares (first ++ a :: last) ∧ t.report = .ofShares (first ++ a :: last)) ∧
      (t'.swarm = .ofShares (first ++ a' :: last) ∧ t'.report = .ofShares (first ++ a' :: last)) ∧
      (t.factory = t'.factory ∧ t.source = t'.source) ∧
      ((s.ids ++ t.report.spawned).Nodup → (s'.ids ++ t'.report.spawned).Nodup →
        t.swarm.without a.ids = t'.swarm.without a'.ids ∧
          t.report.without a.ids = t'.report.without a'.ids) := by
  intro s s' t t'
  -- A share depends on the host only, not on the budget: the entries before the one have the same shares
  -- because the hosts agree at first, those behind it because they agree after it.
  obtain ⟨hfirst, -⟩ := Swarm.shares_congr frame before hhost
  obtain ⟨hlast, hend⟩ := Swarm.shares_congr frame after hthere
  have hs := Swarm.shares_middle frame before e after x
  have hs' := Swarm.shares_middle frame before e' after x'
  rw [← hfirst, ← hlast] at hs'
  have ht : t = ⟨.ofShares (Swarm.shares frame s.entries x).1, _, _, _⟩ := s.tick_eq_shares frame x
  have ht' : t' = ⟨.ofShares (Swarm.shares frame s'.entries x').1, _, _, _⟩ :=
    s'.tick_eq_shares frame x'
  rw [hs] at ht
  rw [hs'] at ht'
  refine ⟨_, _, _, _, Swarm.length_shares frame before x, Swarm.length_shares frame after _,
    (e.share_fares frame _).id, (e'.share_fares frame _).id, congrArg Prod.fst hs,
    congrArg Prod.fst hs', ⟨congrArg (·.swarm) ht, congrArg (·.report) ht⟩,
    ⟨congrArg (·.swarm) ht', congrArg (·.report) ht'⟩, ?_, fun hnodup hnodup' => ?_⟩
  · rw [ht, ht']
    exact hend
  · obtain ⟨hswarm, hreport⟩ := Swarm.tick_without (congrArg Prod.fst hs) hnodup
    obtain ⟨hswarm', hreport'⟩ := Swarm.tick_without (congrArg Prod.fst hs') hnodup'
    exact ⟨hswarm.trans hswarm'.symm, hreport.trans hreport'.symm⟩

end Ticks

/-- A pattern that counts to three. -/
def counting : Action Node := ⟨none, [.loop (.number 3) (.action ⟨none, []⟩)]⟩

/-- A pattern that makes one bullet. -/
def oneShot : Action Node :=
  ⟨none, [.fire ⟨none, none, none, .inline ⟨none, none, none, []⟩⟩]⟩

/-- Two bullets. -/
def Swarm.pair (r shooter : Runner) : Swarm (Option String) :=
  ⟨[⟨LabelledBullet.first, some r⟩, ⟨{ LabelledBullet.first with id := ⟨9⟩ }, some shooter⟩]⟩

set_option maxRecDepth 10000 in
/-- Whether the first of two patterns uses up its iterations or vanishes, the second has the same
share. -/
theorem entries_isolated_pair :
    ∃ r r' shooter : Runner, Runner.ofAction (.bare ⟨1, 64, 1⟩) counting [] = .ok r ∧
      Runner.ofAction (.bare ⟨1, 64, 1⟩) vanishing [] = .ok r' ∧
      Runner.ofAction (.bare ⟨1, 64, 1⟩) oneShot [] = .ok shooter ∧
      let s := Swarm.pair r shooter
      let s' := Swarm.pair r' shooter
      (s.quietTick.report.removed = [] ∧ s'.quietTick.report.removed = [⟨1⟩]) ∧
      s.quietTick.report.spawned = [⟨2⟩] ∧ s.quietTick.factory = s'.quietTick.factory ∧
      ∃ a a' b : Share (Option String),
        s.quietTick.report = .ofShares [a, b] ∧ s'.quietTick.report = .ofShares [a', b] ∧
        s.quietTick.report.without a.ids = s'.quietTick.report.without a'.ids := by
  obtain ⟨r, hr⟩ : ∃ r, Runner.ofAction (.bare ⟨1, 64, 1⟩) counting [] = .ok r := ⟨_, rfl⟩
  obtain ⟨r', hr'⟩ : ∃ r, Runner.ofAction (.bare ⟨1, 64, 1⟩) vanishing [] = .ok r := ⟨_, rfl⟩
  obtain ⟨shooter, hs⟩ : ∃ r, Runner.ofAction (.bare ⟨1, 64, 1⟩) oneShot [] = .ok r := ⟨_, rfl⟩
  let x : Relay Foundry Tape := ⟨.plain, ⟨[], 0⟩, 7⟩
  let x' : Relay Foundry Tape := ⟨.plain, ⟨[], 0⟩, 0⟩
  have hstart : (Swarm.shares ⟨1, ⟨0, -100⟩, 0⟩ [⟨LabelledBullet.first, some r⟩] x).2.SameHost
        (Swarm.shares ⟨1, ⟨0, -100⟩, 0⟩ [⟨LabelledBullet.first, some r'⟩] x').2 ∧
      ((Swarm.pair r shooter).ids ++ (Swarm.pair r shooter).quietTick.report.spawned).Nodup ∧
      ((Swarm.pair r' shooter).ids ++ (Swarm.pair r' shooter).quietTick.report.spawned).Nodup ∧
      (Swarm.pair r shooter).quietTick.report.removed = [] ∧
      (Swarm.pair r' shooter).quietTick.report.removed = [⟨1⟩] ∧
      (Swarm.pair r shooter).quietTick.report.spawned = [⟨2⟩] := by
    cases hr
    cases hr'
    cases hs
    decide
  obtain ⟨hthere, hnodup, hnodup', hstays, hleaves, hspawned⟩ := hstart
  obtain ⟨first, last, a, a', hfirst, hlast, -, -, -, -, ⟨-, hreport⟩, ⟨-, hreport'⟩, ⟨hhost, -⟩,
    hwithout⟩ := entries_isolated [] [⟨{ LabelledBullet.first with id := ⟨9⟩ }, some shooter⟩]
      ⟨LabelledBullet.first, some r⟩ ⟨LabelledBullet.first, some r'⟩ ⟨1, ⟨0, -100⟩, 0⟩ x x'
      ⟨rfl, rfl⟩ hthere
  obtain rfl := List.eq_nil_of_length_eq_zero hfirst
  obtain ⟨b, rfl⟩ := List.length_eq_one_iff.1 hlast
  exact ⟨r, r', shooter, hr, hr', hs, ⟨hstays, hleaves⟩, hspawned, hhost, a, a', b, hreport, hreport',
    (hwithout hnodup hnodup').2⟩

end Barrage
