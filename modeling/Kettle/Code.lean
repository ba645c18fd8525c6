/-
Code: what a tree means, with everything checked that can be checked before it runs. Code keeps the
positions that runtime faults need.
-/
import Kettle.Literal
import Kettle.Node
import Kettle.Operator

namespace Kettle

/-- The three ways of leaving a computation early. -/
inductive FlowKind where
  | ret | brk | cont
  deriving DecidableEq, Repr

/-- Runnable code. -/
inductive Code where
  | literal (l : Literal)
  | lookup (name : Text)
  | assign (name : Text) (value : Code)
  | binary (op : Operator) (pos : Position) (left right : Code)
  | and (left right : Code)
  | or (left right : Code)
  | not (operand : Code)
  | negate (pos : Position) (operand : Code)
  | block (statements : List Code)
  | tuple (items : List Code)
  | function (params : List Text) (body : Node) (code : Code)
  | apply (pos : Position) (callee : Code) (args : List Code)
  | ret (operand : Code)
  | jump (kind : FlowKind)

end Kettle
