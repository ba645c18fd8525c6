/-
What the operators compute. Two integers give an integer, an integer and a double are two doubles,
and two texts can be joined and compared; everything else is a type fault.
-/
import Kettle.Fault
import Kettle.Value
import Kettle.Word

namespace Kettle

namespace Arithmetic

/-- Arithmetic on integers, which wraps around; a divisor must not be zero. -/
def onInts (a b : Int) : Arithmetic → Except RuntimeCause Int
  | add => .ok (Word.wrap (a + b))
  | sub => .ok (Word.wrap (a - b))
  | mul => .ok (Word.wrap (a * b))
  | div => if b = 0 then .error .divideByZero else .ok (Word.wrap (Word.quotient a b))
  | mod => if b = 0 then .error .moduloByZero else .ok (Word.wrap (Word.remainder a b))

/-- Arithmetic on doubles, which have no remainder. -/
def onFloats? (a b : Float) : Arithmetic → Option Float
  | add => some (a + b)
  | sub => some (a - b)
  | mul => some (a * b)
  | div => some (a / b)
  | mod => none

/-- Arithmetic on texts, which can only be joined. -/
def onTexts? (a b : Text) : Arithmetic → Option Text
  | add => some (a ++ b)
  | _ => none

end Arithmetic

namespace Comparison

/-- Whether two integers compare so. -/
def onInts (a b : Int) : Comparison → Bool
  | eq => a = b
  | neq => a ≠ b
  | lt => a < b
  | gt => b < a
  | lte => a ≤ b
  | gte => b ≤ a

/-- Whether two doubles compare so; a double that is no number is unequal to everything, and no other
comparison holds of it. -/
def onFloats (a b : Float) : Comparison → Bool
  | eq => a == b
  | neq => a != b
  | lt => a < b
  | gt => b < a
  | lte => a ≤ b
  | gte => b ≤ a

/-- Whether two texts compare so, rune by rune. -/
def onTexts (a b : Text) : Comparison → Bool
  | eq => a = b
  | neq => a ≠ b
  | lt => a < b
  | gt => b < a
  | lte => !decide (b < a)
  | gte => !decide (a < b)

end Comparison

namespace Operator

/-- An operator on integers. -/
def onInts (a b : Int) : Operator → Except RuntimeCause Value
  | arithmetic op => (op.onInts a b).map .int
  | comparison c => .ok (.bool (c.onInts a b))

/-- An operator on doubles, if it has a meaning there. -/
def onFloats? (a b : Float) : Operator → Option Value
  | arithmetic op => (op.onFloats? a b).map .float
  | comparison c => some (.bool (c.onFloats a b))

/-- An operator on texts, if it has a meaning there. -/
def onTexts? (a b : Text) : Operator → Option Value
  | arithmetic op => (op.onTexts? a b).map .str
  | comparison c => some (.bool (c.onTexts a b))

/-- An operator on two values that are not both integers, if it has a meaning there. -/
def onMixed? (op : Operator) : Value → Value → Option Value
  | .int a, .float b => op.onFloats? (Decimal.floatOfInt a) b
  | .float a, .int b => op.onFloats? a (Decimal.floatOfInt b)
  | .float a, .float b => op.onFloats? a b
  | .str a, .str b => op.onTexts? a b
  | _, _ => none

/-- An operator on two values. -/
def apply (op : Operator) (left right : Value) : Except RuntimeCause Value :=
  match left, right with
  | .int a, .int b => op.onInts a b
  | _, _ =>
    match op.onMixed? left right with
    | some v => .ok v
    | none => .error (.operandTypes op.symbol left.typeName right.typeName)

end Operator

end Kettle
