import Barrage.Data.ReadBack

/-!
# Patterns survive an exchange

* `RoundTrips`: what is written is read back, as long as its numbers are finite.
* `patterns_round_trip`: that holds of every type of a pattern and of configurations.
-/

namespace Barrage

open Data

/-- Values whose numbers are finite go through data and come back. -/
structure RoundTrips {α : Type} (write : α → Data) (read : Data → Option α)
    (numbers : α → List Scalar) : Prop where
  /-- What was written is read back. -/
  read_write : ∀ x, AllFinite (numbers x) → read (write x) = some x
  /-- No two values are written the same way. -/
  write_injective : ∀ x y, AllFinite (numbers x) → AllFinite (numbers y) → write x = write y → x = y
  /-- What was read from any data, in its usual form or not, is read again once it is written. -/
  write_read : ∀ d x, read d = some x → AllFinite (numbers x) → read (write x) = some x

theorem RoundTrips.of_read_write {α : Type} {write : α → Data} {read : Data → Option α}
    {numbers : α → List Scalar} (h : ∀ x, AllFinite (numbers x) → read (write x) = some x) :
    RoundTrips write read numbers where
  read_write := h
  write_injective x y hx hy hxy := Option.some.inj ((h x hx).symm.trans (hxy ▸ h y hy))
  write_read _ x _ hx := h x hx

/-- Formulas, directions, speeds, actions, bullet definitions, fires, nodes and configurations are read
back from what they are written as, however deep they nest and whatever parts they lack, if all numbers
in them are finite. So no two of them are written the same way, and data that is read without being in
the form that is written, with further fields or without some, gives a value that is kept from then
on. -/
theorem patterns_round_trip :
    RoundTrips Formula.toData Formula.ofData? Formula.numbers ∧
    RoundTrips Node.toData Node.ofData? Node.numbers ∧
    RoundTrips Action.toData Action.ofData? Action.numbers ∧
    RoundTrips Fire.toData Fire.ofData? Fire.numbers ∧
    RoundTrips BulletDef.toData BulletDef.ofData? BulletDef.numbers ∧
    RoundTrips DirectionSpec.toData DirectionSpec.ofData? DirectionSpec.numbers ∧
    RoundTrips SpeedSpec.toData SpeedSpec.ofData? SpeedSpec.numbers ∧
    RoundTrips Config.toData Config.ofData? Config.numbers := by
  refine ⟨?formula, ?node, ?action, ?fire, ?bullet, ?direction, ?speed, ?config⟩
  case formula => exact .of_read_write fun _ => Formula.ofData?_toData
  case node => exact .of_read_write fun _ => Node.ofData?_toData
  case action => exact .of_read_write fun _ => Action.ofData?_toData
  case fire => exact .of_read_write fun _ => Fire.ofData?_toData
  case bullet => exact .of_read_write fun _ => BulletDef.ofData?_toData
  case direction => exact .of_read_write fun _ => DirectionSpec.ofData?_toData
  case speed => exact .of_read_write fun _ => SpeedSpec.ofData?_toData
  case config => exact .of_read_write fun _ => Config.ofData?_toData

/-- A loop that fires a bullet with a negative heading and the greatest parameter there is. -/
def mirroredVolley : Node :=
  .loop (.param 0xffffffffffffffff) (.action ⟨some "volley", [
    .fire ⟨none, some ⟨.sequence, .number (-1.5)⟩, none,
      .inline ⟨none, none, some ⟨.absolute, .neg .rand⟩, [.vanish, .wait .rank]⟩⟩,
    .fireRef ⟨"other", [.binary .rem (.param 1) (.number 0)]⟩]⟩)

/-- A nested loop is read back; an action with an unknown field and without a label, and a
configuration that gives nothing, are read and kept. -/
theorem patterns_round_trip_mirrored_volley :
    AllFinite mirroredVolley.numbers ∧ Node.ofData? mirroredVolley.toData = some mirroredVolley ∧
    (∃ a, Action.ofData? (.record [("comment", .integer 1), ("children", .list [.text "Vanish"])]) =
        some a ∧ a.label = none ∧ Action.ofData? a.toData = some a) ∧
    ∃ c, Config.ofData? (.record [("comment", .null)]) = some c ∧ Config.ofData? c.toData = some c := by
  obtain ⟨-, hnode, haction, -, -, -, -, hconfig⟩ := patterns_round_trip
  have hfinite : AllFinite mirroredVolley.numbers := by decide
  have hkept : Action.ofData? (.record [("comment", .integer 1), ("children", .list [.text "Vanish"])])
      = some ⟨none, [.vanish]⟩ := rfl
  have hstandard : Config.ofData? (.record [("comment", .null)]) = some .standard := rfl
  exact ⟨hfinite, hnode.read_write _ hfinite,
    ⟨_, hkept, rfl, haction.write_read _ _ hkept (by decide)⟩,
    _, hstandard, hconfig.write_read _ _ hstandard (by decide)⟩

end Barrage
