import Barrage.Except
import Barrage.Walk.Basic

/-!
# Laws of walks

* `Walk.draw_ok`, `Walk.draw_error`: a draw changes nothing but the random source.
* `Walk.Grows`: no bullet that was made is lost; `Scene.grows_shoot` and its like say so of the parts
  of a walk.
* `Walk.Passes`: what a walk makes that is repeated, pass by pass; `Walk.passes_of_times`.
-/

namespace Barrage

namespace Walk

variable {φ ρ α β γ : Type}

theorem draw_ok {d : Draw ρ β} {w : World φ ρ α} {x : β} {source : ρ}
    (h : d.run w.source = (.ok x, source)) : (draw d).run w = (.ok x, { w with source }) := by
  simp only [draw, ExceptT.run_mk, h]

theorem draw_error {d : Draw ρ β} {w : World φ ρ α} {e : EvalError} {source : ρ}
    (h : d.run w.source = (.error e, source)) :
    (draw d).run w = (.error (.failed (.evaluation e)), { w with source }) := by
  simp only [draw, ExceptT.run_mk, h]

/-- No bullet that was made is lost. -/
def Grows (m : Walk φ ρ α β) : Prop := ∀ w, w.made <+: (m.run w).2.made

theorem grows_pure (x : β) : (pure x : Walk φ ρ α β).Grows := fun w => List.prefix_refl w.made

theorem grows_throw (h : Halt) : (throw h : Walk φ ρ α β).Grows := fun w => List.prefix_refl w.made

theorem Grows.bind {m : Walk φ ρ α β} {f : β → Walk φ ρ α γ} (hm : m.Grows)
    (hf : ∀ x, (f x).Grows) : (m >>= f).Grows := by
  intro w
  have h := hm w
  rcases hr : m.run w with ⟨e | x, w'⟩ <;> rw [hr] at h
  · rw [run_error hr]
    exact h
  · rw [run_ok hr]
    exact h.trans (hf x w')

theorem grows_draw (d : Draw ρ β) : (draw d : Walk φ ρ α β).Grows := by
  intro w
  have hmade : ((draw d : Walk φ ρ α β).run w).2.made = w.made := by
    rcases hr : d.run w.source with ⟨e | x, source⟩
    · rw [draw_error hr]
    · rw [draw_ok hr]
  exact hmade ▸ List.prefix_refl w.made

theorem Grows.times {m : Walk φ ρ α Unit} (hm : m.Grows) (n : Nat) : (times n m).Grows := by
  induction n with
  | zero => exact grows_pure ()
  | succ n ih => exact hm.bind fun _ => ih

/-- Passes of a walk one after the other, with the bullets that each of them makes. -/
inductive Passes (m : Walk φ ρ α Unit) :
    World φ ρ α → List (List (Spawn α)) → World φ ρ α → Prop where
  | nil {w} : Passes m w [] w
  | cons {w w' w'' pass passes} (h : m.run w = (.ok (), w')) (hmade : w'.made = w.made ++ pass)
    (hrest : Passes m w' passes w'') : Passes m w (pass :: passes) w''

/-- The bullets of all passes are made in order. -/
theorem Passes.made {m : Walk φ ρ α Unit} {w w' : World φ ρ α} {passes : List (List (Spawn α))}
    (h : m.Passes w passes w') : w'.made = w.made ++ passes.flatten := by
  induction h with
  | nil => exact (List.append_nil _).symm
  | cons _ hmade _ ih => rw [ih, hmade, List.flatten_cons, List.append_assoc]

/-- A walk that is repeated makes as many passes. -/
theorem passes_of_times {m : Walk φ ρ α Unit} (hm : m.Grows) {n : Nat} {w w' : World φ ρ α}
    (h : (times n m).run w = (.ok (), w')) : ∃ passes, passes.length = n ∧ m.Passes w passes w' := by
  induction n generalizing w with
  | zero =>
    cases h
    exact ⟨[], rfl, .nil⟩
  | succ n ih =>
    obtain ⟨pass, hmade⟩ := hm w
    rcases hr : m.run w with ⟨e | ⟨⟩, w₁⟩
    · rw [times, run_error hr] at h
      cases h
    · rw [times, run_ok hr] at h
      rw [hr] at hmade
      obtain ⟨passes, hlength, hpasses⟩ := ih h
      exact ⟨pass :: passes, congrArg (· + 1) hlength, .cons hr hmade.symm hpasses⟩

end Walk

namespace Scene

variable {φ ρ α : Type} [RandomSource ρ] [BulletFactory φ α] (scene : Scene α)

/-- A fire asks with what was fired last, then makes the bullet. -/
theorem run_shoot (params : Params) (fire : Fire Node) (definition : BulletDef Node)
    (args : Option (List Formula)) (w : World φ ρ α) :
    (scene.shoot params fire definition args).run w
      = (Walk.draw (scene.request w.last params fire definition args) >>=
          scene.create definition).run w := rfl

theorem grows_shoot (params : Params) (fire : Fire Node) (definition : BulletDef Node)
    (args : Option (List Formula)) :
    (scene.shoot params fire definition args : Walk φ ρ α Unit).Grows := by
  have hcreate (r : Request) : (scene.create definition r : Walk φ ρ α Unit).Grows :=
    fun w => List.prefix_append w.made _
  have hget : (get : Walk φ ρ α (World φ ρ α)).Grows := fun w => List.prefix_refl w.made
  exact hget.bind fun w => (Walk.grows_draw _).bind hcreate

end Scene

end Barrage
