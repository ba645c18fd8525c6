/-
The shortest decimal of a double: of the decimals that read back as the same double, one with the
fewest digits, and of those the nearest. The search compares decimals with the ends of the double's
rounding interval in exact integer arithmetic, so nothing is rounded on the way.
-/

namespace Kettle.Decimal

/-- A positive double: `mantissa * 2 ^ exponent`, and whether the double below it is only half as
far away as the one above. -/
structure Binary where
  mantissa : Nat
  exponent : Int
  narrowBelow : Bool
  deriving DecidableEq, Repr

/-- A decimal number `digits * 10 ^ exponent`. -/
structure Digits where
  digits : Nat
  exponent : Int
  deriving DecidableEq, Repr

/-- The leading bit of a mantissa, which is not written in the bits of most doubles. -/
def hidden : Nat := 0x10000000000000

/-- The magnitude of a finite double. -/
def Binary.ofFloat (x : Float) : Binary :=
  let bits := x.toBits.toNat % 0x8000000000000000
  let fraction := bits % hidden
  let power : Nat := bits / hidden
  if power = 0 then ⟨fraction, -1074, false⟩
  else ⟨fraction + hidden, Int.ofNat power - 1075, fraction = 0 && 1 < power⟩

/-- Compares `a * 10 ^ p` with `b * 2 ^ e`. -/
def compareScaled (a : Nat) (p : Int) (b : Nat) (e : Int) : Ordering :=
  compare (a * Nat.pow 10 p.toNat * Nat.pow 2 (-e).toNat) (b * Nat.pow 2 e.toNat * Nat.pow 10 (-p).toNat)

namespace Binary

/-- Whether the decimal `c * 10 ^ p` reads back as this double. -/
def covers (x : Binary) (c : Nat) (p : Int) : Bool :=
  let low := 4 * x.mantissa - if x.narrowBelow then 1 else 2
  let high := 4 * x.mantissa + 2
  let closed := x.mantissa % 2 = 0
  (match compareScaled c p low (x.exponent - 2) with
    | .gt => true
    | .eq => closed
    | .lt => false) &&
  (match compareScaled c p high (x.exponent - 2) with
    | .lt => true
    | .eq => closed
    | .gt => false)

/-- The whole number of units `10 ^ p` in this double. -/
def floorAt (x : Binary) (p : Int) : Nat :=
  (x.mantissa * Nat.pow 2 x.exponent.toNat * Nat.pow 10 (-p).toNat)
    / (Nat.pow 2 (-x.exponent).toNat * Nat.pow 10 p.toNat)

/-- The number of decimal digits of a number. -/
def digitCount (n : Nat) : Nat := if n < 10 then 1 else digitCount (n / 10) + 1

/-- The power of ten just above this double. -/
def magnitude (x : Binary) : Int := (digitCount (x.floorAt (-400)) : Int) - 400

/-- Of the two neighbours of this double on the grid of `10 ^ p`, the nearest that reads back; of two
equally near ones the even one. -/
def nearest? (x : Binary) (p : Int) : Option Nat :=
  let c := x.floorAt p
  match x.covers c p, x.covers (c + 1) p with
  | true, true =>
    match compareScaled (2 * c + 1) p (2 * x.mantissa) x.exponent with
    | .gt => some c
    | .lt => some (c + 1)
    | .eq => some (if c % 2 = 0 then c else c + 1)
  | true, false => some c
  | false, true => some (c + 1)
  | false, false => none

/-- Searches the grids of `count` digits and more, for `tries` of them. -/
def search (x : Binary) (magnitude : Int) : (tries count : Nat) → Digits
  | 0, count => ⟨x.floorAt (magnitude - count), magnitude - count⟩
  | tries + 1, count =>
    match x.nearest? (magnitude - count) with
    | some c => ⟨c, magnitude - count⟩
    | none => search x magnitude tries (count + 1)

end Binary

/-- The same number without trailing zeros in its digits, given at least as many steps as it has. -/
def Digits.trim : Nat → Digits → Digits
  | 0, d => d
  | steps + 1, d =>
    if d.digits % 10 = 0 && d.digits ≠ 0 then Digits.trim steps ⟨d.digits / 10, d.exponent + 1⟩ else d

/-- The shortest decimal of a positive double; seventeen digits always suffice. -/
def shortest (x : Binary) : Digits :=
  (x.search x.magnitude 17 1).trim 20

end Kettle.Decimal
