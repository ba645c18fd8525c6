/-
Literals: the values that a program text can spell by itself, and the names reserved for three of
them.
-/
import Kettle.Text.Rune

namespace Kettle

/-- A value that needs no evaluation. -/
inductive Literal where
  | nil
  | bool (b : Bool)
  | int (n : Int)
  | float (x : Float)
  | str (t : Text)

namespace Literal

/-- The reserved names and what they stand for. -/
def reserved : List (Text × Literal) :=
  [("true", .bool true), ("false", .bool false), ("nil", .nil)]

/-- The literal that a reserved name stands for. -/
def ofName? (name : Text) : Option Literal := reserved.lookup name

end Literal

end Kettle
