/-
Quoted text, the form in which messages show a text. It stands in single quotes, or in double quotes
when it holds a single quote and no double quote. The quote in use and the backslash are escaped,
tab, line feed and carriage return have short escapes, and any other rune that is not printable is
written by its code.
-/
import Kettle.Text.Rune
import Kettle.Text.Printable

namespace Kettle.Text

/-- The quote around a text. -/
def quoteFor (t : Text) : Rune :=
  if t.contains ('\x27' : Rune) && !t.contains ('"' : Rune) then '"' else '\x27'

/-- One rune inside quotes. -/
def quoteRune (quote r : Rune) : Text :=
  if r = quote || r = '\\' then ['\\', r]
  else if r = '\t' then "\\t"
  else if r = '\n' then "\\n"
  else if r = '\r' then "\\r"
  else if r.isPrintable then [r]
  else if r.val < 0x100 then "\\x" ++ ofHex 2 r.val
  else if r.val < 0x10000 then "\\u" ++ ofHex 4 r.val
  else "\\U" ++ ofHex 8 r.val

/-- A text in quotes. -/
def quoted (t : Text) : Text :=
  let quote := quoteFor t
  [quote] ++ t.flatMap (quoteRune quote) ++ [quote]

/-- A list of texts in quotes, in square brackets. -/
def quotedList (ts : List Text) : Text :=
  "[" ++ join ", " (ts.map quoted) ++ "]"

end Kettle.Text
