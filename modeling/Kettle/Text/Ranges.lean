/-
Classes of code points given by their ranges.
-/

namespace Kettle.Text

/-- Inclusive ranges of code points, in increasing order. -/
abbrev Ranges := List (Nat × Nat)

/-- Whether a code point lies in one of the ranges. -/
def Ranges.has (ranges : Ranges) (code : Nat) : Bool :=
  ranges.any fun (low, high) => low ≤ code && code ≤ high

end Kettle.Text
