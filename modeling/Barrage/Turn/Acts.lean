import Barrage.Step.Onward
import Barrage.Step.Part
import Barrage.Turn.Valid

/-!
# What a turn does to a step

* `Event.isDeed`: the events that tell of a leaf that has its turn or of a bullet that is made.
  `Turn.Does` says which of them a turn adds.
* `Step.Acts`: what a turn can do to a step. Only the step under a cursor has its turn, no leaf has one
  that is done, and a fire makes at most one bullet, after which it is done.
* `Sequence.advance_acts`: every turn of a valid sequence is like that.
* `Step.Acts.onward`: no cursor goes back in a turn. `Step.Acts.everywhere`: a turn keeps local
  properties.
-/

namespace Barrage

/-- Whether an event tells that a leaf has its turn or that a bullet is made. -/
def Event.isDeed : Event → Bool
  | began _ | created _ => true
  | _ => false

/-- The bullet that an event tells of. -/
def Event.made? : Event → Option BulletId
  | created id => some id
  | _ => none

namespace Turn

variable {φ ρ α : Type} {t t' t'' : Turn φ ρ α} {es es' : List Event}

/-- A turn went on with some deeds and made the bullets that they tell of. -/
structure Does (t t' : Turn φ ρ α) (es : List Event) : Prop where
  deeds : t'.journal.toList.filter Event.isDeed = t.journal.toList.filter Event.isDeed ++ es
  made : t'.spawned.toList.map (·.bullet.id)
    = t.spawned.toList.map (·.bullet.id) ++ es.filterMap Event.made?

theorem Does.refl (t : Turn φ ρ α) : t.Does t [] :=
  ⟨(List.append_nil _).symm, (List.append_nil _).symm⟩

theorem Does.trans (h : t.Does t' es) (h' : t'.Does t'' es') : t.Does t'' (es ++ es') := by
  refine ⟨?_, ?_⟩
  · rw [h'.deeds, h.deeds, List.append_assoc]
  · rw [h'.made, h.made, List.filterMap_append, List.append_assoc]

theorem Draws.does (h : t.Draws t') : t.Does t' [] := by
  obtain ⟨es, hes, hm⟩ := h.journal
  have hnone : es.filter Event.isDeed = [] := by
    refine List.filter_eq_nil_iff.2 fun e he => ?_
    obtain ⟨f, params, rfl⟩ := hm e he
    exact Bool.false_ne_true
  refine ⟨?_, ?_⟩
  · rw [hes, List.filter_append, hnone]
  · rw [h.spawned]
    exact (List.append_nil _).symm

/-- An event that is no deed. -/
theorem Does.of_push {e : Event} (hj : t'.journal = t.journal.push e)
    (hs : t'.spawned = t.spawned) (he : e.isDeed = false) : t.Does t' [] := by
  refine ⟨?_, ?_⟩
  · rw [hj, Array.toList_push, List.filter_append]
    simp [he]
  · rw [hs]
    exact (List.append_nil _).symm

theorem does_began (t : Turn φ ρ α) (kind : StepKind) :
    t.Does (t.log (.began kind)) [.began kind] := by
  refine ⟨?_, (List.append_nil _).symm⟩
  show (t.journal.push (.began kind)).toList.filter Event.isDeed = _
  rw [Array.toList_push, List.filter_append]
  rfl

theorem does_leave (t : Turn φ ρ α) (kind : StepKind) (running : Bool) (clock : Option Clock) :
    t.Does (t.leave kind running clock) [] := .of_push rfl rfl rfl

theorem does_spend (t : Turn φ ρ α) : t.Does t.spend [] := .of_push rfl rfl rfl

theorem does_exhaust (t : Turn φ ρ α) : t.Does t.exhaust [] := .of_push rfl rfl rfl

theorem does_make [BulletFactory φ α] (stage : Stage) (definition : BulletDef Node) (r : Request)
    (t : Turn φ ρ α) : ∃ id, t.Does (t.make stage definition r) [.created id] := by
  have hmade (spawn : Spawn α) (bullet : Bullet α) (he : spawn.bullet = bullet) :
      (t.spawned.push spawn).toList.map (·.bullet.id)
        = t.spawned.toList.map (·.bullet.id) ++ [bullet.id] := by
    rw [Array.toList_push, List.map_append, List.map_singleton, he]
  refine ⟨(BulletFactory.create definition t.owner r.heading r.pace t.factory).1.id, ?_, ?_⟩
  · show (t.journal.push _).toList.filter Event.isDeed = _
    rw [Array.toList_push, List.filter_append]
    rfl
  · refine hmade _ _ ?_
    rcases Runner.ofSpawn stage.builder definition r.params with _ | _ <;> rfl

end Turn

/-! ## What a turn can do -/

/-- What a turn can do to a step, with the deeds in order. -/
inductive Step.Acts : Step → List Event → Step → Prop where
  /-- Nothing but evaluations that fail, or nothing at all. -/
  | rest {s : Step} : Acts s [] s
  /-- The step under the cursor has its turn, which it needs, unless it is an empty sequence. The
  cursor passes it only if it is done. -/
  | child {s : Sequence Step} {scope : Scope} {isNew : Bool} {c c' : Step} {es : List Event} {n : Nat}
    (hc : (s.withScope scope isNew).current? = some c) (hr : c.Ready) (h : Acts c es c')
    (hn : n = s.cursor ∨ n = s.cursor + 1 ∧ c'.isDone = true) :
    Acts (.sequence s) es
      (.sequence { s.withScope scope isNew with
        children := (s.withScope scope isNew).children.set s.cursor c', cursor := n })
  /-- A loop is entered. -/
  | enter {l : LoopStep Step} {x : Scalar} {es : List Event} {s' : Step} (ht : l.target = none)
    (h : Acts (.loop { l with target := some x.count.toNat }) es s') : Acts (.loop l) es s'
  /-- The body of a loop that is not done has its turn, and starts over if that was an iteration. -/
  | round {l : LoopStep Step} {n : Nat} {body : Sequence Step} {es es' : List Event} {s' : Step}
    (ht : l.target = some n) (hn : l.completed < n) (hr : (Step.sequence l.body).Ready)
    (h : Acts (.sequence l.body) es (.sequence body))
    (hnext : Acts (.loop ({ l with body } : LoopStep Step).settle) es' s') :
    Acts (.loop l) (es ++ es') s'
  /-- A fire makes one bullet, once. -/
  | fire {f : FireStep} {scope : Scope} {id : BulletId} (hf : f.fired = false) :
    Acts (.fire f) [.began .fire, .created id] (.fire { f with scope, fired := true })
  /-- A fire fails and makes none. -/
  | misfire {f : FireStep} {scope : Scope} (hf : f.fired = false) :
    Acts (.fire f) [.began .fire] (.fire { f with scope })
  | mutation {m m' : MutationStep} (hm : m.isDone = false) (hf : m'.finished = m.finished) :
    Acts (.mutation m) [.began .mutation] (.mutation m')
  | wait {w w' : WaitStep} (hw : w.isDone = false) (hf : w'.finished = w.finished) :
    Acts (.wait w) [.began .wait] (.wait w')
  | vanish : Acts (.vanish false) [.began .vanish] (.vanish true)

variable {φ ρ α : Type}

/-- A turn of the step under the cursor is one of the sequence. -/
theorem Step.Acts.settle {s : Sequence Step} {scope : Scope} {isNew : Bool} {c : Step}
    {es : List Event} {o : Outcome Step (Turn φ ρ α)}
    (hc : (s.withScope scope isNew).current? = some c) (hr : c.Ready) (h : c.Acts es o.step) :
    (Step.sequence s).Acts es (.sequence ((s.withScope scope isNew).settle o).step) := by
  unfold Sequence.settle
  cases o.error with
  | some e => exact .child hc hr h (.inl rfl)
  | none =>
    by_cases hd : o.step.isDone = true
    · simp only [hd, if_true]
      exact .child hc hr h (.inr ⟨rfl, hd⟩)
    · simp only [hd]
      exact .child hc hr h (.inl rfl)

/-- The turns of valid steps do what turns can do. -/
def Contract.acts : Contract φ ρ α where
  sequence _ s t o :=
    s.Valid → ∃ es, t.Does o.turn es ∧ (Step.sequence s).Acts es (.sequence o.step)
  step _ s t o := s.Valid → s.Ready → ∃ es, t.Does o.turn es ∧ s.Acts es o.step
  rounds _ l t o := l.Valid → ∃ es, t.Does o.turn es ∧ (Step.loop l).Acts es (.loop o.step)

variable [RandomSource ρ] [BulletFactory φ α]

theorem FireStep.acts_dispatch (stage : Stage) (params : Params) (t : Turn φ ρ α) {f : FireStep}
    (hf : f.fired = false) :
    ∃ es, t.Does (f.dispatch stage params t).turn es ∧
      (Step.fire f).Acts es (.fire (f.dispatch stage params t).step) := by
  have hbegan := t.does_began .fire
  rcases f.dispatch_cases stage params t with ⟨_, _, f', hd, hf', h⟩ |
    ⟨scope, _, _, r, t₂, -, -, hd, h⟩ <;> rw [h]
  · refine ⟨[.began .fire], hbegan.trans hd.does, ?_⟩
    rcases hf' with rfl | ⟨scope, rfl⟩
    · exact .misfire hf
    · exact .misfire hf
  · obtain ⟨id, hmake⟩ := Turn.does_make stage f.definition r t₂
    have hleave := (t₂.make stage f.definition r).does_leave .fire false none
    exact ⟨_, (hbegan.trans hd.does).trans (hmake.trans hleave), .fire hf⟩

omit [BulletFactory φ α] in
theorem MutationStep.acts_dispatch (stage : Stage) (params : Params) (t : Turn φ ρ α)
    {m : MutationStep} (hm : m.isDone = false) :
    ∃ es, t.Does (m.dispatch stage params t).turn es ∧
      (Step.mutation m).Acts es (.mutation (m.dispatch stage params t).step) := by
  have hbegan := t.does_began .mutation
  rcases m.dispatch_cases stage params t with ⟨_, _, -, hd, h⟩ | ⟨g, t', m', -, hd, hm', h⟩ <;> rw [h]
  · exact ⟨_, hbegan.trans hd.does, .mutation hm rfl⟩
  · have hsteer : t'.Does
        ({ t' with owner := m.steering.write t'.owner (g.valueAt m'.elapsed) }.log .steered) [] :=
      .of_push (e := .steered) rfl rfl rfl
    have hleave := Turn.does_leave
      ({ t' with owner := m.steering.write t'.owner (g.valueAt m'.elapsed) }.log .steered)
      .mutation (!m'.isDone) (some ⟨m.elapsed, g.duration⟩)
    exact ⟨_, (hbegan.trans hd.does).trans (hsteer.trans hleave), .mutation hm (by rw [hm'])⟩

omit [BulletFactory φ α] in
theorem WaitStep.acts_dispatch (stage : Stage) (params : Params) (t : Turn φ ρ α) {w : WaitStep}
    (hw : w.isDone = false) :
    ∃ es, t.Does (w.dispatch stage params t).turn es ∧
      (Step.wait w).Acts es (.wait (w.dispatch stage params t).step) := by
  have hbegan := t.does_began .wait
  rcases w.dispatch_cases stage params t with ⟨_, _, -, hd, h⟩ | ⟨d, t', w', -, hd, hw', h⟩ <;> rw [h]
  · exact ⟨_, hbegan.trans hd.does, .wait hw rfl⟩
  · have hleave := t'.does_leave .wait (!w'.isDone) (some ⟨w.elapsed, d⟩)
    exact ⟨_, (hbegan.trans hd.does).trans hleave, .wait hw (by rw [hw'])⟩

omit [RandomSource ρ] [BulletFactory φ α] in
theorem Step.acts_vanish (t : Turn φ ρ α) {triggered : Bool}
    (h : (Step.vanish triggered).isDone = false) :
    ∃ es, t.Does ({ t.log (.began .vanish) with removed := true }.leave .vanish false none) es ∧
      (Step.vanish triggered).Acts es (.vanish true) := by
  obtain rfl : triggered = false := h
  have hbegan := t.does_began .vanish
  have hleave : (t.log (.began .vanish)).Does
      ({ t.log (.began .vanish) with removed := true }.leave .vanish false none) [] :=
    .of_push (e := .ended .vanish false none) rfl rfl rfl
  exact ⟨_, hbegan.trans hleave, .vanish⟩

theorem Contract.acts_kept (stage : Stage) :
    (valid.and (acts (φ := φ) (ρ := ρ) (α := α))).Kept stage where
  done hd := ⟨(valid_kept stage).done hd, fun _ => ⟨[], .refl _, .rest⟩⟩
  scopeFails hd hr :=
    ⟨(valid_kept stage).scopeFails hd hr, fun _ => ⟨[], (Turn.Draws.of_resolve hr).does, .rest⟩⟩
  current {_ s _ scope isNew _ c o} hd hr hc ho := by
    refine ⟨(valid_kept stage).current hd hr hc ho.1, fun hs => ?_⟩
    obtain ⟨-, hvalid, -, hcurrent, -⟩ := Sequence.valid_iff.1 (hs.withScope scope isNew)
    have hready := hcurrent c hc
    obtain ⟨es, hdoes, hacts⟩ := ho.2 (hvalid c (List.mem_of_getElem? hc)) hready
    refine ⟨es, ?_, .settle hc hready hacts⟩
    rw [Sequence.turn_settle]
    exact (Turn.Draws.of_resolve hr).does.trans hdoes
  nested ho := ⟨(valid_kept stage).nested ho.1, fun hs _ => ho.2 hs⟩
  fire params f t := ⟨(valid_kept stage).fire params f t, fun _ hr =>
    f.acts_dispatch stage params t (hr.not_done rfl)⟩
  mutation params m t := ⟨(valid_kept stage).mutation params m t, fun _ hr =>
    m.acts_dispatch stage params t (hr.not_done rfl)⟩
  wait params w t := ⟨(valid_kept stage).wait params w t, fun _ hr =>
    w.acts_dispatch stage params t (hr.not_done rfl)⟩
  vanish params triggered t := ⟨(valid_kept stage).vanish params triggered t, fun _ hr =>
    Step.acts_vanish t (hr.not_done rfl)⟩
  countFails hl hr :=
    ⟨(valid_kept stage).countFails hl hr, fun _ _ => ⟨[], (Turn.Draws.of_eval hr).does, .rest⟩⟩
  entered {_ l _ x _ _} hl hr ho := by
    refine ⟨(valid_kept stage).entered hl hr ho.1, fun hs _ => ?_⟩
    obtain ⟨es, hdoes, hacts⟩ := ho.2 (LoopStep.Valid.enter hs hl _)
    exact ⟨es, (Turn.Draws.of_eval hr).does.trans hdoes, .enter hl hacts⟩
  resumed hl ho := ⟨(valid_kept stage).resumed hl ho.1, fun hs _ => ho.2 hs⟩
  ended hl hn := ⟨(valid_kept stage).ended hl hn, fun _ => ⟨[], .refl _, .rest⟩⟩
  exhausted {_ _ t _} hl hn hb :=
    ⟨(valid_kept stage).exhausted hl hn hb, fun _ => ⟨[], t.does_exhaust, .rest⟩⟩
  fails {_ l t n o e} hl hn hb ho he := by
    refine ⟨(valid_kept stage).fails hl hn hb ho.1 he, fun hs => ?_⟩
    obtain ⟨hbody, hentered, -⟩ := LoopStep.valid_iff.1 hs
    obtain ⟨es, hdoes, hacts⟩ := ho.2 hbody
    -- The body is not done after an error, so that was no iteration.
    have hsettle : ({ l with body := o.step } : LoopStep Step).settle = { l with body := o.step } :=
      if_neg (by simp [(ho.1 hbody).2 (by simp [he])])
    have hround := Step.Acts.round hl hn (hentered n hl).2 hacts .rest
    rw [hsettle] at hround
    exact ⟨es ++ [], t.does_spend.trans (hdoes.trans (.refl _)), hround⟩
  yields {_ l t n o} hl hn hb ho he hy := by
    refine ⟨(valid_kept stage).yields hl hn hb ho.1 he hy, fun hs => ?_⟩
    obtain ⟨hbody, hentered, -⟩ := LoopStep.valid_iff.1 hs
    obtain ⟨es, hdoes, hacts⟩ := ho.2 hbody
    have hround := Step.Acts.round hl hn (hentered n hl).2 hacts .rest
    exact ⟨es ++ [], t.does_spend.trans (hdoes.trans (.refl _)), hround⟩
  again {_ l t n o o'} hl hn hb ho he hy hr := by
    refine ⟨(valid_kept stage).again hl hn hb ho.1 he hy hr.1, fun hs => ?_⟩
    obtain ⟨hbody, hentered, -⟩ := LoopStep.valid_iff.1 hs
    obtain ⟨es, hdoes, hacts⟩ := ho.2 hbody
    obtain ⟨es', hdoes', hacts'⟩ := hr.2 (hs.settle hl hn (ho.1 hbody).1)
    have hround := Step.Acts.round hl hn (hentered n hl).2 hacts hacts'
    exact ⟨es ++ es', t.does_spend.trans (hdoes.trans hdoes'), hround⟩

/-- Every turn of a valid sequence does what turns can do. -/
theorem Sequence.advance_acts (stage : Stage) (params : Params) {s : Sequence Step} (hs : s.Valid)
    (t : Turn φ ρ α) :
    ∃ es, t.Does (s.advance stage params t).turn es ∧
      (Step.sequence s).Acts es (.sequence (s.advance stage params t).step) :=
  ((Contract.acts_kept stage).advance params s t).2 hs

/-! ## What follows -/

namespace Step

theorem onward_withScope (s : Sequence Step) (scope : Scope) (isNew : Bool) :
    (sequence s).Onward (.sequence (s.withScope scope isNew)) := by
  unfold Sequence.withScope
  cases isNew with
  | true =>
    rw [if_pos rfl, expireAll_eq_map]
    exact .map (Nat.le_refl _) rfl fun c _ => c.onward_expire
  | false => exact .map (f := id) (Nat.le_refl _) (List.map_id _).symm fun c _ => c.onward_refl

/-- A step of a sequence goes on, and the cursor does not go back. -/
theorem Onward.set {s : Sequence Step} {c c' : Step} {n : Nat} (hc : s.current? = some c)
    (h : c.Onward c') (hn : s.cursor ≤ n) :
    (Step.sequence s).Onward
      (.sequence { s with children := s.children.set s.cursor c', cursor := n }) := by
  have hlt : s.cursor < s.children.length := (List.getElem?_eq_some_iff.1 hc).1
  refine .sequence hn (List.length_set ..) fun i d d' hd hd' => ?_
  by_cases hi : s.cursor = i
  · subst hi
    obtain rfl := Option.some.inj (hc.symm.trans hd)
    rw [List.getElem?_set_self hlt] at hd'
    exact Option.some.inj hd' ▸ h
  · rw [List.getElem?_set_ne hi] at hd'
    obtain rfl := Option.some.inj (hd.symm.trans hd')
    exact d.onward_refl

/-- A loop goes on when its body has had its turn. -/
theorem Onward.round {l : LoopStep Step} {body : Sequence Step}
    (h : (Step.sequence l.body).Onward (.sequence body)) :
    (Step.loop l).Onward (.loop ({ l with body } : LoopStep Step).settle) := by
  rw [LoopStep.settle]
  by_cases hd : body.isDone = true
  · rw [if_pos hd]
    exact .again (fun _ h => h) (Nat.lt_succ_self _)
  · rw [if_neg hd]
    exact .within (fun _ h => h) rfl h

/-- A step goes on in its turn. -/
theorem Acts.onward {s s' : Step} {es : List Event} (h : s.Acts es s') : s.Onward s' := by
  induction h with
  | rest => exact onward_refl _
  | @child s scope isNew _ _ _ n hc _ _ hn ih =>
    exact (onward_withScope s scope isNew).trans (.set hc ih (by show s.cursor ≤ n; omega))
  | @enter l x _ _ ht _ ih =>
    have henter : (loop l).Onward (.loop { l with target := some x.count.toNat }) := by
      refine .within (fun n hn => ?_) rfl (onward_refl _)
      rw [ht] at hn
      cases hn
    exact henter.trans ih
  | round _ _ _ _ _ ih ihnext => exact (Onward.round ih).trans ihnext
  | fire _ => exact .fire fun _ => rfl
  | misfire _ => exact .fire id
  | mutation _ _ => exact .mutation
  | wait _ _ => exact .wait
  | vanish => exact .vanish fun _ => rfl

/-- A turn keeps local properties. -/
theorem Acts.everywhere {P : Step → Prop} (hP : Local P) {s s' : Step} {es : List Event}
    (h : s.Acts es s') (hs : s.Everywhere P) : s'.Everywhere P := by
  induction h with
  | rest => exact hs
  | @child s scope isNew c c' _ _ hc _ _ _ ih =>
    have hall : ∀ d ∈ (s.withScope scope isNew).children, d.Everywhere P := by
      have hold := (everywhere_sequence.1 hs).2
      unfold Sequence.withScope
      cases isNew with
      | true =>
        rw [if_pos rfl, expireAll_eq_map]
        exact List.forall_mem_map.2 fun d hd => (hold d hd).expire hP
      | false => exact hold
    refine everywhere_sequence.2 ⟨hP.sequence _, fun d hd => ?_⟩
    rcases List.mem_or_eq_of_mem_set hd with hd | rfl
    · exact hall d hd
    · exact ih (hall c (List.mem_of_getElem? hc))
  | enter _ _ ih => exact ih (everywhere_loop.2 ⟨hP.entered rfl, (everywhere_loop.1 hs).2⟩)
  | @round l _ body _ _ _ _ _ _ _ _ ih ihnext =>
    obtain ⟨hl, hb⟩ := everywhere_loop.1 hs
    apply ihnext
    rw [LoopStep.settle]
    by_cases hd : body.isDone = true
    · rw [if_pos hd]
      exact everywhere_loop.2 ⟨hP.loop (l := l) rfl hl, everywhere_reset hP (.sequence body)⟩
    · rw [if_neg hd]
      exact everywhere_loop.2 ⟨hP.loop (l := l) rfl hl, ih hb⟩
  | fire _ | misfire _ => exact (everywhere_leaf rfl).2 (hP.fire _)
  | mutation _ hf => exact (everywhere_leaf rfl).2 (hP.mutation hf hs.self)
  | wait _ hf => exact (everywhere_leaf rfl).2 (hP.wait hf hs.self)
  | vanish => exact (everywhere_leaf rfl).2 (hP.vanish _)

end Step

end Barrage
