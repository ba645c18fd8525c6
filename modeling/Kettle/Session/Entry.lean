/-
Entries typed at the prompt. An entry is complete once every bracket is closed and the next line break
would end a statement; an entry that cannot be scanned is complete too, since more lines would not
mend it. Before an entry is run, its invisible runes are taken out.
-/
import Kettle.Text.Blank
import Kettle.Token.Scan

namespace Kettle.Entry

/-- The name of the source that entries come from. -/
def sourceName : Text := "<repl>"

/-- The scan of an entry with a line break after it. -/
def scanned (entry : Text) : Scan := scan sourceName (entry ++ "\n")

/-- The number of open brackets after one more token; a closing bracket too many is not counted. -/
def openAfter (depth : Nat) : Kind → Nat
  | .lpar | .lbrace => depth + 1
  | .rpar | .rbrace => depth - 1
  | _ => depth

/-- Whether an entry can be run. -/
def isRunnable (entry : Text) : Bool :=
  let s := scanned entry
  match s.ending with
  | .failed .. => true
  | .finished _ =>
    let kinds := (s.tokens.map Token.kind).filter fun k => !k.isComment
    kinds.foldl openAfter 0 = 0 && kinds.getLast? = some .separator

/-- Runes that are taken out of entries: those that cannot be seen, and carriage returns. -/
def isInvisible (r : Rune) : Bool :=
  r.val = 0x200B || r.val = 0x200C || r.val = 0x200D || r.val = 0xFEFF || r.val = 0xA0 || r = '\r'

/-- An entry without its invisible runes. -/
def cleaned (entry : Text) : Text := entry.filter fun r => !isInvisible r

/-- Whether an entry is a command: a slash comes first, blanks aside. -/
def isCommand (entry : Text) : Bool := (Text.trimLeft entry).head? = some ('/' : Rune)

/-- Whether the enter key ends an entry: a command, nothing at all, or a complete program. -/
def isSubmitted (entry : Text) : Bool := isCommand entry || Text.isBlank entry || isRunnable entry

end Kettle.Entry
