import Barrage.Document.Basic
import Barrage.Formula.Eval

/-!
# Errors of running patterns

An error ends the one pattern that raised it and nothing else.
-/

namespace Barrage

/-- Why a pattern could not be built or go on. -/
inductive StepError where
  | document (error : DocumentError)
  | unsupported (kind : NodeKind)
  | evaluation (error : EvalError)
  | nestingTooDeep (label : Option String) (depth : Nat)
deriving DecidableEq, Repr

namespace StepError

/-- Whether a label names no definition of the kind that is needed. -/
def isNotFound : StepError → Bool
  | document (.notFound ..) => true
  | _ => false

/-- Whether a pattern has an operation that is not supported or nests too deep. -/
def isLimit : StepError → Bool
  | unsupported _ | nestingTooDeep .. => true
  | document _ | evaluation _ => false

/-- Whether a formula could not be evaluated. -/
def isEvaluation : StepError → Bool
  | evaluation _ => true
  | document _ | unsupported _ | nestingTooDeep .. => false

theorem isNotFound_of_isLimit {x : StepError} (h : x.isLimit = true) : x.isNotFound = false := by
  cases x with
  | unsupported _ | nestingTooDeep _ _ => rfl
  | document _ | evaluation _ => cases h

theorem isNotFound_of_isEvaluation {x : StepError} (h : x.isEvaluation = true) :
    x.isNotFound = false := by
  cases x with
  | evaluation _ => rfl
  | document _ | unsupported _ | nestingTooDeep _ _ => cases h

instance : Diagnostic StepError where
  code
    | .document e => Diagnostic.code e
    | .unsupported _ => "STEP_UNSUPPORTED_OPERATION"
    | .evaluation e => Diagnostic.code e
    | .nestingTooDeep .. => "STEP_NESTING_TOO_DEEP"
  message
    | .document e => Diagnostic.message e
    | .unsupported kind => "unsupported operation '" ++ kind.name ++ "'"
    | .evaluation e => "expression evaluation failed: " ++ Diagnostic.message e
    | .nestingTooDeep label depth =>
      "action nesting too deep: '" ++ label.getD "<inline>" ++ "' reached depth " ++ toString depth
  severity
    | .document e => Diagnostic.severity e
    | .unsupported _ => .authoring
    | .evaluation e => Diagnostic.severity e
    | .nestingTooDeep .. => .authoring

end StepError

end Barrage
