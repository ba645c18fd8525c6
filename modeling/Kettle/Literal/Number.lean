/-
Number literals. Without a point a literal is an integer if it fits, and else the double nearest to
it; with a point it is a double.
-/
import Kettle.Decimal.Read
import Kettle.Fault
import Kettle.Limits
import Kettle.Literal
import Kettle.Word

namespace Kettle.Literal

/-- The double that a literal spells. -/
def floatOf (text : Text) (pos : Position) : Except Fault Literal :=
  match Decimal.readFloat? text with
  | some x => .ok (.float x)
  | none => .error (.compile (.malformedNumber text) pos)

/-- The number that a literal spells. -/
def ofNumber (limits : Limits) (text : Text) (pos : Position) : Except Fault Literal :=
  if text.contains ('.' : Rune) then floatOf text pos
  else match Decimal.readInt limits.digits text with
    | .notANumber => .error (.numeral (.notANumber text))
    | .tooLong digits => .error (.numeral (.tooLong limits.digits digits))
    | .value n => if Word.fits n then .ok (.int n) else floatOf text pos

end Kettle.Literal
