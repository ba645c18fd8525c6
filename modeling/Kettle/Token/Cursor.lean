/-
The cursor: the line and column reached in a source. A carriage return, a line feed or the two
together break the line, and tab stops stand every four columns.
-/
import Kettle.Position

namespace Kettle

/-- A line, a column, and whether the rune before them is a carriage return. -/
structure Cursor where
  line : Nat
  column : Nat
  afterReturn : Bool
  deriving DecidableEq, Repr

namespace Cursor

/-- The cursor before the first rune. -/
def start : Cursor := ⟨1, 1, false⟩

/-- The distance between tab stops. -/
def tabWidth : Nat := 4

/-- The cursor after one more rune. -/
def step (c : Cursor) (r : Rune) : Cursor :=
  if r = '\t' then ⟨c.line, ((c.column - 1) / tabWidth + 1) * tabWidth + 1, false⟩
  else if r = '\n' && c.afterReturn then ⟨c.line, c.column, false⟩
  else if r = '\n' || r = '\r' then ⟨c.line + 1, 1, r = '\r'⟩
  else ⟨c.line, c.column + 1, false⟩

/-- The cursor after a text. -/
def advance (c : Cursor) (t : Text) : Cursor := t.foldl step c

/-- The position of the cursor in a source. -/
def position (c : Cursor) (source : Text) : Position := ⟨c.line, c.column, source⟩

@[simp] theorem advance_nil (c : Cursor) : c.advance [] = c := rfl

@[simp] theorem advance_cons (c : Cursor) (r : Rune) (t : Text) :
    c.advance (r :: t) = (c.step r).advance t := rfl

theorem advance_append (c : Cursor) (s t : Text) : c.advance (s ++ t) = (c.advance s).advance t := by
  simp [advance]

end Cursor

end Kettle
