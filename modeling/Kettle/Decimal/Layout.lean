/-
How floating-point numbers are written: the shortest decimal, positional while its leading digit
stands between the fourth decimal place and the sixteenth digit, and with an exponent otherwise.
-/
import Kettle.Text.Rune
import Kettle.Decimal.Shortest

namespace Kettle.Decimal

/-- The choices of a written form. -/
structure Layout where
  /-- The least power of ten of the leading digit that is written positionally. -/
  leastPositional : Int
  /-- The least power of ten of the leading digit above it that is not. -/
  positionalBelow : Int
  /-- The least number of digits of an exponent. -/
  exponentWidth : Nat

/-- Positional from `0.0001` up to sixteen digits; exponents have a sign and two digits at least. -/
def plain : Layout := ⟨-4, 16, 2⟩

/-- A run of zeros. -/
def zeros (count : Nat) : Text := List.replicate count (Text.digit 0)

namespace Layout

/-- An exponent with its mark and sign. -/
def exponentText (layout : Layout) (e : Int) : Text :=
  let digits := Text.ofNat e.natAbs
  (if e < 0 then Text.ofString "e-" else "e+") ++ zeros (layout.exponentWidth - digits.length) ++ digits

/-- A decimal number; a positional one always has digits on both sides of its point. -/
def write (layout : Layout) (d : Digits) : Text :=
  let digits := Text.ofNat d.digits
  let power := d.exponent + digits.length - 1
  if layout.leastPositional ≤ power && power < layout.positionalBelow then
    if power < 0 then "0." ++ zeros (-power - 1).toNat ++ digits
    else
      let whole := power.toNat + 1
      if digits.length ≤ whole then digits ++ zeros (whole - digits.length) ++ ".0"
      else digits.take whole ++ "." ++ digits.drop whole
  else
    match digits with
    | [] => []
    | [first] => [first] ++ layout.exponentText power
    | first :: more => [first] ++ "." ++ more ++ layout.exponentText power

end Layout

/-- A double as the language writes it. -/
def ofFloat (x : Float) : Text :=
  if x.isNaN then "nan"
  else
    let sign : Text := if 0x8000000000000000 ≤ x.toBits.toNat then "-" else ""
    if x.isInf then sign ++ "inf"
    else if x == 0.0 then sign ++ "0.0"
    else sign ++ plain.write (shortest (Binary.ofFloat x))

end Kettle.Decimal
