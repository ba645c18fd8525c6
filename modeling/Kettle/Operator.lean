/-
The operators that compute a value from two others: arithmetic and comparison.
-/
import Kettle.Kind

namespace Kettle

/-- The arithmetic operators. -/
inductive Arithmetic where
  | add | sub | mul | div | mod
  deriving DecidableEq, Repr

/-- The comparisons. -/
inductive Comparison where
  | eq | neq | lt | gt | lte | gte
  deriving DecidableEq, Repr

/-- An operator on two values. -/
inductive Operator where
  | arithmetic (op : Arithmetic)
  | comparison (c : Comparison)
  deriving DecidableEq, Repr

namespace Operator

/-- The operator that nodes of a kind apply. -/
def ofKind? : Kind → Option Operator
  | .plus => some (arithmetic .add)
  | .minus => some (arithmetic .sub)
  | .star => some (arithmetic .mul)
  | .slash => some (arithmetic .div)
  | .mod => some (arithmetic .mod)
  | .eq => some (comparison .eq)
  | .neq => some (comparison .neq)
  | .lt => some (comparison .lt)
  | .gt => some (comparison .gt)
  | .lte => some (comparison .lte)
  | .gte => some (comparison .gte)
  | _ => none

/-- How an operator is written. -/
def symbol : Operator → Text
  | arithmetic .add => "+"
  | arithmetic .sub => "-"
  | arithmetic .mul => "*"
  | arithmetic .div => "/"
  | arithmetic .mod => "%"
  | comparison .eq => "=="
  | comparison .neq => "!="
  | comparison .lt => "<"
  | comparison .gt => ">"
  | comparison .lte => "<="
  | comparison .gte => ">="

end Operator

end Kettle
