/-
What can be wrong with the runes of a source.
-/
import Kettle.Text.Quoted
import Kettle.Kind

namespace Kettle

/-- The three string delimiters. -/
inductive Quote where
  | double | single | back
  deriving DecidableEq, Repr

namespace Quote

/-- The rune that opens and closes the string. -/
def rune : Quote → Rune
  | double => '"'
  | single => '\x27'
  | back => '\x60'

/-- The kind of the string. -/
def kind : Quote → Kind
  | double => .doubleQuoted
  | single => .singleQuoted
  | back => .backquoted

/-- What the delimiter is called. -/
def name : Quote → Text
  | double => "double quote"
  | single => "single quote"
  | back => "backtick"

/-- The delimiter a rune opens. -/
def ofRune? (r : Rune) : Option Quote :=
  if r = '"' then some double
  else if r = '\x27' then some single
  else if r = '\x60' then some back
  else none

/-- Whether a backslash escapes the rune after it, and a line break ends the string too early. -/
def isEscaped : Quote → Bool
  | double | single => true
  | back => false

end Quote

/-- Why no token starts at a place. -/
inductive LexicalCause where
  | unrecognized (r : Rune)
  | secondPoint
  | letterInNumber (r : Rune)
  | unclosedString (quote : Quote)
  deriving DecidableEq, Repr

/-- The wording of a lexical fault. -/
def LexicalCause.message : LexicalCause → Text
  | unrecognized r => "unrecognized rune " ++ Text.quoted [r]
  | secondPoint => "malformed number: second decimal point"
  | letterInNumber r => "malformed number: unexpected " ++ Text.quoted [r]
  | unclosedString quote => "unclosed " ++ quote.name ++ " string"

end Kettle
