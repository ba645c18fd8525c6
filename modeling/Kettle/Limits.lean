/-
The limits within which sources are built and run.
-/

namespace Kettle

/-- How deep brackets, trees, values, calls and nested tuples may go, and how long an integer may be. -/
structure Limits where
  /-- Brackets inside brackets. -/
  brackets : Nat
  /-- Nodes inside nodes that still compile and still can be copied, and nodes and values inside one another that
  still can be written out. -/
  nodes : Nat
  /-- Calls inside calls. -/
  calls : Nat
  /-- Tuples, each the first element of the next, whose truth is still decided. -/
  tuples : Nat
  /-- Digits of an integer literal. -/
  digits : Nat
  deriving DecidableEq, Repr

/-- The limits of the interpreter. -/
def Limits.standard : Limits := ⟨600, 2500, 1500, 9000, 4300⟩

end Kettle
