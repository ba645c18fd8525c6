/-
Integers of 64 bits: results that do not fit wrap around, and division rounds toward zero.
-/

namespace Kettle.Word

/-- The number of integers of 64 bits. -/
def span : Nat := 0x10000000000000000

/-- The least integer of 64 bits. -/
def least : Int := -0x8000000000000000

/-- The greatest integer of 64 bits. -/
def greatest : Int := 0x7fffffffffffffff

/-- The integer of 64 bits that differs from `n` by a multiple of `span`: two's complement wraparound, counted
from the least integer. -/
def wrap (n : Int) : Int := (n - least) % span + least

/-- Whether an integer has 64 bits at most. -/
def fits (n : Int) : Bool := least ≤ n && n ≤ greatest

/-- Division that rounds toward zero, by a divisor that is not zero: the absolute values are divided, and the signs
of both operands decide about the sign. -/
def quotient (a b : Int) : Int :=
  let q : Int := (a.natAbs / b.natAbs : Nat)
  if a < 0 ↔ b < 0 then q else -q

/-- What division that rounds toward zero leaves of the dividend. -/
def remainder (a b : Int) : Int := a - b * quotient a b

end Kettle.Word
