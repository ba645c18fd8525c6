/-
What can be wrong with the tokens of a source. All but the last are complaints: the statement at fault
is dropped and building goes on.
-/
import Kettle.Text.Quoted

namespace Kettle

/-- The two kinds of brackets. -/
inductive Bracket where
  | paren | brace
  deriving DecidableEq, Repr

/-- What a bracket is called. -/
def Bracket.name : Bracket → Text
  | paren => "paren"
  | brace => "brace"

/-- Why tokens make no tree. -/
inductive GrammarCause where
  | unclosed (bracket : Bracket) (text : Text)
  | misplaced (text : Text)
  | unreduced (shown : Text)
  | nestedTooDeeply
  deriving DecidableEq, Repr

/-- The wording of a grammatical fault. -/
def GrammarCause.message : GrammarCause → Text
  | unclosed bracket text => "open " ++ bracket.name ++ " without close " ++ Text.quoted text
  | misplaced text => "misplaced operator or missing operand " ++ Text.quoted text
  | unreduced shown => "statement did not reduce to a single expression: " ++ shown
  | nestedTooDeeply => "brackets nested too deeply"

end Kettle
