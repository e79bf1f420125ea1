import Barrage.Turn.Contract

/-!
# What turns carry along

* `Turn.Carries`: a relation between a turn and what it is later on that holds across each thing that
  the steps do to it. The fields are those things.
* `Turn.Carries.advance`: such a relation holds across every turn of a sequence.
* `Bullet.Steered`, `Sequence.advance_steered`: a turn changes nothing of the owner but its heading and
  its speed.
-/

namespace Barrage

variable {φ ρ α : Type}

/-- A relation between turns that holds across each thing that steps do to a turn. -/
structure Turn.Carries [BulletFactory φ α] (stage : Stage) (R : Turn φ ρ α → Turn φ ρ α → Prop) :
    Prop where
  refl (t) : R t t
  trans {t t' t''} (h : R t t') (h' : R t' t'') : R t t''
  draws {t t'} (h : t.Draws t') : R t t'
  began (t kind) : R t (t.log (.began kind))
  leave (t kind running clock) : R t (t.leave kind running clock)
  spend (t) : R t t.spend
  exhaust (t) : R t t.exhaust
  make (t definition r) : R t (t.make stage definition r)
  steer (t) (steering : Steering) (x) :
    R t ({ t with owner := steering.write t.owner x }.log .steered)
  remove (t) : R t { t with removed := true }

/-- A relation between the turns before and after, whatever the step. -/
def Contract.between (R : Turn φ ρ α → Turn φ ρ α → Prop) : Contract φ ρ α where
  sequence _ _ t o := R t o.turn
  step _ _ t o := R t o.turn
  rounds _ _ t o := R t o.turn

variable [RandomSource ρ] [BulletFactory φ α] {stage : Stage} {R : Turn φ ρ α → Turn φ ρ α → Prop}

namespace Turn

theorem Carries.fire (h : Carries stage R) (params : Params) (f : FireStep) (t : Turn φ ρ α) :
    R t (f.dispatch stage params t).turn := by
  rcases f.dispatch_cases stage params t with ⟨_, _, _, hd, -, hx⟩ | ⟨_, _, _, r, t', -, -, hd, hx⟩ <;>
    rw [hx]
  · exact h.trans (h.began t .fire) (h.draws hd)
  · have hmake := h.trans (h.make t' f.definition r) (h.leave _ .fire false none)
    exact h.trans (h.trans (h.began t .fire) (h.draws hd)) hmake

theorem Carries.mutation (h : Carries stage R) (params : Params) (m : MutationStep)
    (t : Turn φ ρ α) : R t (m.dispatch stage params t).turn := by
  rcases m.dispatch_cases stage params t with ⟨_, _, -, hd, hx⟩ | ⟨g, t', m', -, hd, -, hx⟩ <;> rw [hx]
  · exact h.trans (h.began t .mutation) (h.draws hd)
  · have hsteer := h.trans (h.steer t' m.steering (g.valueAt m'.elapsed))
      (h.leave _ .mutation (!m'.isDone) (some ⟨m.elapsed, g.duration⟩))
    exact h.trans (h.trans (h.began t .mutation) (h.draws hd)) hsteer

theorem Carries.wait (h : Carries stage R) (params : Params) (w : WaitStep) (t : Turn φ ρ α) :
    R t (w.dispatch stage params t).turn := by
  rcases w.dispatch_cases stage params t with ⟨_, _, -, hd, hx⟩ | ⟨d, t', w', -, hd, -, hx⟩ <;> rw [hx]
  · exact h.trans (h.began t .wait) (h.draws hd)
  · have hleave := h.leave t' .wait (!w'.isDone) (some ⟨w.elapsed, d⟩)
    exact h.trans (h.trans (h.began t .wait) (h.draws hd)) hleave

omit [RandomSource ρ] in
theorem Carries.vanish (h : Carries stage R) (t : Turn φ ρ α) :
    R t ({ t.log (.began .vanish) with removed := true }.leave .vanish false none) :=
  h.trans (h.trans (h.began t .vanish) (h.remove _)) (h.leave _ .vanish false none)

theorem Carries.kept (h : Carries stage R) : (Contract.between R).Kept stage where
  done _ := h.refl _
  scopeFails _ hr := h.draws (.of_resolve hr)
  current {_ s _ scope isNew _ _ o} _ hr _ ho := by
    show R _ ((s.withScope scope isNew).settle o).turn
    rw [Sequence.turn_settle]
    exact h.trans (h.draws (.of_resolve hr)) ho
  nested ho := ho
  fire params f t := h.fire params f t
  mutation params m t := h.mutation params m t
  wait params w t := h.wait params w t
  vanish _ _ t := h.vanish t
  countFails _ hr := h.draws (.of_eval hr)
  entered _ hr ho := h.trans (h.draws (.of_eval hr)) ho
  resumed _ ho := ho
  ended _ _ := h.refl _
  exhausted _ _ _ := h.exhaust _
  fails _ _ _ ho _ := h.trans (h.spend _) ho
  yields _ _ _ ho _ _ := h.trans (h.spend _) ho
  again _ _ _ ho _ _ hr := h.trans (h.trans (h.spend _) ho) hr

/-- What each thing that steps do to a turn carries along, every turn does. -/
theorem Carries.advance (h : Carries stage R) (params : Params) (s : Sequence Step)
    (t : Turn φ ρ α) : R t (s.advance stage params t).turn :=
  h.kept.advance params s t

end Turn

/-! ## The owner -/

/-- A bullet that is another, but for its heading and its speed. -/
structure Bullet.Steered (b b' : Bullet α) : Prop where
  id : b'.id = b.id
  position : b'.position = b.position
  payload : b'.payload = b.payload

theorem Bullet.Steered.refl (b : Bullet α) : b.Steered b := ⟨rfl, rfl, rfl⟩

theorem Bullet.Steered.trans {b b' b'' : Bullet α} (h : b.Steered b') (h' : b'.Steered b'') :
    b.Steered b'' :=
  ⟨h'.id.trans h.id, h'.position.trans h.position, h'.payload.trans h.payload⟩

theorem Steering.write_steered (owner : Bullet α) (x : Scalar) (steering : Steering) :
    owner.Steered (steering.write owner x) := by
  cases steering <;> exact ⟨rfl, rfl, rfl⟩

omit [RandomSource ρ] in
theorem Turn.carries_steered (stage : Stage) :
    Turn.Carries stage fun t t' : Turn φ ρ α => t.owner.Steered t'.owner where
  refl t := .refl t.owner
  trans h h' := h.trans h'
  draws h := h.owner ▸ .refl _
  began t _ := .refl t.owner
  leave t _ _ _ := .refl t.owner
  spend t := .refl t.owner
  exhaust t := .refl t.owner
  make t _ _ := .refl t.owner
  steer t steering x := steering.write_steered t.owner x
  remove t := .refl t.owner

/-- A turn changes nothing of the owner but its heading and its speed. -/
theorem Sequence.advance_steered (stage : Stage) (params : Params) (s : Sequence Step)
    (t : Turn φ ρ α) : t.owner.Steered (s.advance stage params t).turn.owner :=
  (Turn.carries_steered stage).advance params s t

end Barrage
