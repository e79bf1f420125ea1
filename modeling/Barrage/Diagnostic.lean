/-!
# Diagnostics

What every error of the library can say of itself: a stable code, a message for the author of a
pattern, and whose fault it is.
-/

namespace Barrage

/-- Whose fault an error is: the pattern as written, or the values it was run with. -/
inductive Severity where
  | authoring
  | evaluation
deriving DecidableEq, Repr

namespace Severity

/-- The name of a severity. -/
def name : Severity → String
  | authoring => "authoring"
  | evaluation => "evaluation"

/-- Whether the pattern has to be changed to mend the error. -/
def isAuthoring (s : Severity) : Bool := s == authoring

end Severity

/-- Errors that carry a stable code, a message and a severity. -/
class Diagnostic (ε : Type) where
  code : ε → String
  message : ε → String
  severity : ε → Severity

end Barrage
