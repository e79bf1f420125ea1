import Barrage.Random

/-!
# Random sources of a host

* `Tape`: words that are drawn in order, round and round.
* `Source`: a generator or a tape.
-/

namespace Barrage

/-- Words that are drawn one after the other; after the last comes the first again. -/
structure Tape where
  words : List UInt32
  place : Nat
deriving DecidableEq

namespace Tape

/-- The word at the current place; a tape without words gives zeros. -/
def next (t : Tape) : UInt32 × Tape :=
  (t.words.getD (t.place % t.words.length) 0, { t with place := (t.place + 1) % t.words.length })

instance : RandomSource Tape := ⟨next⟩

end Tape

/-- A generator or a tape. -/
inductive Source where
  | generator (generator : Pcg)
  | tape (tape : Tape)
deriving DecidableEq

namespace Source

/-- Draws a word. -/
def next : Source → UInt32 × Source
  | generator g =>
    let (word, g) := g.next
    (word, .generator g)
  | tape t =>
    let (word, t) := t.next
    (word, .tape t)

instance : RandomSource Source := ⟨next⟩

end Source

end Barrage
