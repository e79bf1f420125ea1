import Barrage.Decimal.Reader

/-!
# Configuration

The caps that keep a pattern from running away, and the speed of a bullet that has none.

* `Config.standard`: the values that hold where none are given.
* `Config.validate`: a cap of zero and a speed that is not finite are refused.
* `Config.ofVariables`: read from named variables; what cannot be read keeps its standard value and
  a cap of zero counts as one.
-/

namespace Barrage

/-- Caps and defaults for running patterns. -/
structure Config where
  /-- Repeat iterations that one pattern may start in one tick. -/
  maxIterationsPerTick : UInt64
  /-- How deep actions may nest, references followed. -/
  maxNestingDepth : UInt64
  /-- The speed of a fire that inherits none. -/
  defaultSpeed : Scalar
deriving DecidableEq

/-- Why a configuration was not accepted. -/
inductive ConfigError where
  | unreadable
  | malformed
  | noIterations
  | noNesting
  | unboundedSpeed
deriving DecidableEq, Repr

/-- The message of an error that a readable configuration can have. -/
def ConfigError.message : ConfigError → String
  | .unreadable => "the configuration cannot be read"
  | .malformed => "the configuration is not well formed"
  | .noIterations => "max_iterations_per_tick must be at least 1"
  | .noNesting => "max_nesting_depth must be at least 1"
  | .unboundedSpeed => "default_speed must be finite"

namespace Config

/-- The values that hold where none are given. -/
def standard : Config := ⟨4096, 64, 1⟩

instance : Inhabited Config := ⟨standard⟩

/-- The configuration itself, if its caps are positive and its speed is finite. -/
def validate (config : Config) : Except ConfigError Config :=
  if config.maxIterationsPerTick = 0 then .error .noIterations
  else if config.maxNestingDepth = 0 then .error .noNesting
  else if !config.defaultSpeed.isFinite then .error .unboundedSpeed
  else .ok config

/-- A cap as a variable gives it: unreadable text leaves it alone, zero counts as one. -/
def capOr (standard : UInt64) (text : Option String) : UInt64 :=
  match text.bind (fun s => readUnsigned? s.toList) with
  | some cap => if cap = 0 then 1 else cap
  | none => standard

/-- A speed as a variable gives it: text that spells no finite number leaves it alone. -/
def speedOr (standard : Scalar) (text : Option String) : Scalar :=
  match text.bind (fun s => Scalar.read? s.toList) with
  | some speed => if speed.isFinite then speed else standard
  | none => standard

/-- The configuration that named variables give. -/
def ofVariables (lookup : String → Option String) : Config where
  maxIterationsPerTick :=
    capOr standard.maxIterationsPerTick (lookup "PATTERN_MAX_ITERATIONS_PER_TICK")
  maxNestingDepth := capOr standard.maxNestingDepth (lookup "PATTERN_MAX_NESTING_DEPTH")
  defaultSpeed := speedOr standard.defaultSpeed (lookup "PATTERN_DEFAULT_SPEED")

end Config

end Barrage
