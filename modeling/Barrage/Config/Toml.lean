import Barrage.Config.Basic
import Barrage.Toml.Document

/-!
# Configuration files

A configuration file is a TOML document. Keys that are not there keep their standard values, other
keys and tables are passed over, and the caps and the speed are checked at the end.

* `Config.ofToml`: the configuration of a document.
* `Config.ofFile`: the configuration of a file that may be missing or not be text.
-/

namespace Barrage

namespace Config

/-- A cap: a whole number that fits a word. -/
def capOf? : Toml → Option UInt64
  | .integer n => if 0 ≤ n && n < 2 ^ 64 then some (UInt64.ofNat n.toNat) else none
  | _ => none

/-- A speed: a number of either form, a whole one within the range of words. -/
def speedOf? : Toml → Option Scalar
  | .integer n => if -(2 ^ 63) ≤ n && n < 2 ^ 64 then some (Scalar.ofInt n) else none
  | .real x => some x
  | _ => none

/-- The value of a key, or the standard one if the key is not there. -/
def field {α : Type} (fields : Toml.Fields) (key : String) (read : Toml → Option α)
    (standard : α) : Except ConfigError α :=
  match fields.lookup key with
  | none => .ok standard
  | some v =>
    match read v with
    | some value => .ok value
    | none => .error .malformed

/-- The configuration of a document. -/
def ofToml (source : String) : Except ConfigError Config :=
  match Toml.parse? source with
  | none => .error .malformed
  | some fields => do
    let iterations ←
      field fields "max_iterations_per_tick" capOf? standard.maxIterationsPerTick
    let nesting ← field fields "max_nesting_depth" capOf? standard.maxNestingDepth
    let speed ← field fields "default_speed" speedOf? standard.defaultSpeed
    validate ⟨iterations, nesting, speed⟩

/-- The configuration of the bytes of a file; no bytes stand for no file. -/
def ofFile (bytes : Option ByteArray) : Except ConfigError Config :=
  match bytes.bind String.fromUTF8? with
  | none => .error .unreadable
  | some source => ofToml source

end Config

end Barrage
