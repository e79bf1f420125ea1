import Barrage.Scalar.Basic

/-!
# Sources of randomness

Randomness is a value that is passed along, so the same seed replays the same pattern.

* `RandomSource`: a state that gives one word and its successor.
* `drawUnit`: a scalar in `[0, 1)` made of the upper 24 bits of a word, hence exact.
* `Pcg`: a linear congruential state of 64 bits whose output is permuted by a shift and a rotation
  that its top five bits choose.
-/

namespace Barrage

/-- States from which a word can be drawn. -/
class RandomSource (ρ : Type) where
  next : ρ → UInt32 × ρ

/-- The scalar in `[0, 1)` that the upper 24 bits of a word count in units of `2 ^ -24`. -/
def unitOfWord (word : UInt32) : Scalar := (word >>> 8).toFloat32 / 16777216

/-- Draws a scalar in `[0, 1)`. -/
def drawUnit {ρ : Type} [RandomSource ρ] (source : ρ) : Scalar × ρ :=
  let (word, source) := RandomSource.next source
  (unitOfWord word, source)

/-- A permuted congruential generator. -/
structure Pcg where
  state : UInt64
deriving DecidableEq, Repr

namespace Pcg

/-- The factor between successive states. -/
def multiplier : UInt64 := 6364136223846793005

/-- The summand between successive states. -/
def increment : UInt64 := 1442695040888963407

/-- The state of a generator that was given no seed. -/
def defaultSeed : UInt64 := 0x853c49e6748fea9b

/-- The successor of a state. -/
def step (state : UInt64) : UInt64 := state * multiplier + increment

/-- A word rotated to the right by fewer than 32 bits. -/
def rotateRight (word amount : UInt32) : UInt32 :=
  (word >>> amount) ||| (word <<< ((32 - amount) &&& 31))

/-- The word that a state gives: its upper half folded, then rotated by its top five bits. -/
def output (state : UInt64) : UInt32 :=
  rotateRight (((state >>> 18) ^^^ state) >>> 27).toUInt32 (state >>> 59).toUInt32

/-- Steps the state, then reads the word off it. -/
def next (g : Pcg) : UInt32 × Pcg :=
  let state := step g.state
  (output state, ⟨state⟩)

instance : Inhabited Pcg := ⟨⟨defaultSeed⟩⟩

instance : RandomSource Pcg := ⟨next⟩

end Pcg

end Barrage
