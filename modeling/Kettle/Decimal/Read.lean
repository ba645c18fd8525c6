/-
Reading numbers. A numeral may be surrounded by blanks and carry a sign, its digits may be the
decimal digits of any script, and a single underscore may stand between two digits.
-/
import Kettle.Text.Blank
import Kettle.Text.Digit

namespace Kettle.Decimal

/-- Blanks that may surround a numeral: the six layout blanks, and every blank beyond ASCII. -/
def isMargin (r : Rune) : Bool :=
  if r.val < 0x80 then 0x09 ≤ r.val && r.val ≤ 0x0D || r.val = 0x20 else r.isBlank

/-- The text without the blanks before it. -/
def skipMargin (t : Text) : Text := t.dropWhile isMargin

/-- Whether a text starts with a decimal digit. -/
def startsWithDigit (t : Text) : Bool :=
  match t with
  | [] => false
  | r :: _ => r.decimal?.isSome

/-- The values of the digits at the start of a text, and the text after them; an underscore between
two digits is passed over. -/
def digitRun : Text → List Nat × Text
  | [] => ([], [])
  | r :: rest =>
    match r.decimal? with
    | some d => let (ds, after) := digitRun rest; (d :: ds, after)
    | none => if r = '_' && startsWithDigit rest then digitRun rest else ([], r :: rest)

/-- The digits at the start of a text, if one of them is its first rune. -/
def leadingDigits (t : Text) : List Nat × Text :=
  if startsWithDigit t then digitRun t else ([], t)

/-- The number that digits spell. -/
def valueOf (digits : List Nat) : Nat := digits.foldl (fun n d => n * 10 + d) 0

/-- A sign at the start of a text: whether it is a minus, and the text after it. -/
def sign : Text → Bool × Text
  | [] => (false, [])
  | r :: rest => if r = '-' then (true, rest) else if r = '+' then (false, rest) else (false, r :: rest)

/-- What a text is, read as an integer. -/
inductive Reading where
  | value (n : Int)
  | notANumber
  | tooLong (digits : Nat)
  deriving DecidableEq, Repr

/-- Reads an integer of at most `limit` digits; leading zeros count. Too many digits are found before
a fault in what follows them. -/
def readInt (limit : Nat) (t : Text) : Reading :=
  let (negative, body) := sign (skipMargin t)
  let (digits, after) := leadingDigits body
  if digits.isEmpty || after.head? = some ('_' : Rune) then .notANumber
  else if limit < digits.length then .tooLong digits.length
  else if !(skipMargin after).isEmpty then .notANumber
  else .value (if negative then -(valueOf digits : Int) else valueOf digits)

/-- The double nearest to `digits * 10 ^ exponent`, where `digits` has at most `count` digits. -/
def nearestFloat (digits : Nat) (count : Nat) (exponent : Int) : Float :=
  if digits = 0 then 0.0
  else if 400 < exponent then 1.0 / 0.0
  else if exponent + count < -400 then 0.0
  else if exponent < 0 then Float.ofScientific digits true exponent.natAbs
  else Float.ofScientific digits false exponent.natAbs

/-- The exponent part at the start of a text, zero if there is none; a mark without digits after it
is left in place. -/
def exponentPart : Text → Int × Text
  | [] => (0, [])
  | r :: rest =>
    if r = 'e' || r = 'E' then
      let (negative, body) := sign rest
      let (digits, after) := leadingDigits body
      if digits.isEmpty then (0, r :: rest)
      else (if negative then -(valueOf digits : Int) else valueOf digits, after)
    else (0, r :: rest)

/-- The fraction digits at the start of a text, and the text after them. -/
def fractionPart : Text → List Nat × Text
  | [] => ([], [])
  | r :: rest => if r = '.' then leadingDigits rest else ([], r :: rest)

/-- The names of the doubles that are no numbers. -/
def named? (t : Text) : Option Float :=
  let name := t.map Rune.toLower
  if name = "inf" || name = "infinity" then some (1.0 / 0.0)
  else if name = "nan" then some (0.0 / 0.0)
  else none

/-- Reads a double, rounding to the nearest one. -/
def readFloat? (t : Text) : Option Float :=
  let (negative, body) := sign (((skipMargin t).reverse.dropWhile isMargin).reverse)
  let (whole, afterWhole) := leadingDigits body
  let (fraction, afterFraction) := fractionPart afterWhole
  let (exponent, after) := exponentPart afterFraction
  let magnitude? :=
    if (whole ++ fraction).isEmpty then named? body
    else if !after.isEmpty then none
    else
      let digits := whole ++ fraction
      some (nearestFloat (valueOf digits) digits.length (exponent - fraction.length))
  magnitude?.map fun x => if negative then -x else x

/-- The double nearest to an integer. -/
def floatOfInt (n : Int) : Float :=
  let x := Float.ofScientific n.natAbs false 0
  if n < 0 then -x else x

end Kettle.Decimal
