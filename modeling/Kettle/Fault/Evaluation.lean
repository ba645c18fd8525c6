/-
What can go wrong while code runs.
-/
import Kettle.Text.Quoted

namespace Kettle

/-- Why a run stops. -/
inductive RuntimeCause where
  | divideByZero
  | moduloByZero
  | operandTypes (symbol left right : Text)
  | cannotNegate (type : Text)
  | notAFunction (type shown : Text)
  | arity (received expected : Nat)
  | callDepth
  | recursionDepth
  deriving DecidableEq, Repr

/-- The three classes of runtime faults. -/
inductive RuntimeClass where
  | general | type | arity
  deriving DecidableEq, Repr

namespace RuntimeCause

/-- The class of a runtime fault. -/
def toClass : RuntimeCause → RuntimeClass
  | operandTypes .. | cannotNegate .. | notAFunction .. => .type
  | arity .. => .arity
  | _ => .general

/-- The wording of a runtime fault. -/
def message : RuntimeCause → Text
  | divideByZero => "cannot divide by integer zero"
  | moduloByZero => "cannot take modulo by integer zero"
  | operandTypes symbol left right =>
    "cannot apply operator " ++ Text.quoted symbol ++ " to argument types " ++ left ++ ", " ++ right
  | cannotNegate type => "cannot negate " ++ type
  | notAFunction type shown => "cannot invoke non-function: " ++ type ++ " " ++ shown
  | arity received expected =>
    "failed to apply function: received " ++ Text.ofNat received ++ " arguments for "
      ++ Text.ofNat expected ++ " parameters"
  | callDepth => "maximum call depth exceeded"
  | recursionDepth => "maximum recursion depth exceeded"

end RuntimeCause

end Kettle
