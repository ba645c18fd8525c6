/-
Blank runes, and trimming. Entries typed at the prompt are trimmed of every blank of this class,
while a program text is laid out with the six blanks of its own lexical rules.
-/
import Kettle.Text.Rune
import Kettle.Text.Ranges

namespace Kettle

/-- The blanks beyond ASCII. -/
def Text.blankRanges : Text.Ranges :=
  [(0x85, 0x85), (0xa0, 0xa0), (0x1680, 0x1680), (0x2000, 0x200a), (0x2028, 0x2029),
   (0x202f, 0x202f), (0x205f, 0x205f), (0x3000, 0x3000)]

/-- Whether a rune is blank. -/
def Rune.isBlank (r : Rune) : Bool :=
  if r.val < 0x80 then 0x09 ≤ r.val && r.val ≤ 0x0D || 0x1C ≤ r.val && r.val ≤ 0x20
  else Text.blankRanges.has r.val

namespace Text

/-- The text without its leading blanks. -/
def trimLeft (t : Text) : Text := t.dropWhile Rune.isBlank

/-- The text without its leading and trailing blanks. -/
def trim (t : Text) : Text := (trimLeft (trimLeft t).reverse).reverse

/-- Whether a text is made of blanks only; the empty text is. -/
def isBlank (t : Text) : Bool := t.all Rune.isBlank

end Text

end Kettle
