/-
Tokens: a kind, the text of the source it stands for, and where that text starts.
-/
import Kettle.Text.Quoted
import Kettle.Kind
import Kettle.Position

namespace Kettle

/-- A piece of a source. -/
structure Token where
  kind : Kind
  text : Text
  pos : Position
  deriving DecidableEq, Repr

namespace Token

/-- A token on one line, for people who look at token streams. -/
def describe (t : Token) : Text :=
  "Tok(" ++ t.kind.name ++ ", " ++ Text.quoted t.text ++ ", " ++ Text.ofNat t.pos.line ++ ":"
    ++ Text.ofNat t.pos.column ++ ")"

/-- Tokens on one line. -/
def describeAll (ts : List Token) : Text :=
  "[" ++ Text.join ", " (ts.map describe) ++ "]"

/-- A token in a listing, one token a line. -/
def listing (t : Token) : Text :=
  t.pos.label ++ " " ++ t.kind.name ++ " " ++ Text.quoted t.text ++ "\n"

end Token

end Kettle
