/-
Where something stands in a source: a full position, and a place, which may leave parts of it out.
A message about a place starts with as much of the position as there is.
-/
import Kettle.Text.Rune

namespace Kettle

/-- A line and a column of a named source, both counted from one. -/
structure Position where
  line : Nat
  column : Nat
  source : Text
  deriving DecidableEq, Repr

namespace Position

/-- The start of a source. -/
def start (source : Text) : Position := ⟨1, 1, source⟩

/-- A position as it is written before a message. -/
def label (p : Position) : Text :=
  p.source ++ ":" ++ Text.ofNat p.line ++ ":" ++ Text.ofNat p.column

/-- Whether a position comes before another one, line first. -/
def before (p q : Position) : Bool :=
  p.line < q.line || p.line = q.line && p.column < q.column

end Position

/-- A position of which any part may be missing. -/
structure Place where
  line : Option Int
  column : Option Int
  source : Option Text
  deriving DecidableEq, Repr

namespace Place

/-- No position at all. -/
def unknown : Place := ⟨none, none, none⟩

/-- The place of a position. -/
def ofPosition (p : Position) : Place := ⟨some p.line, some p.column, some p.source⟩

/-- The place of a position that may be missing. -/
def ofOption : Option Position → Place
  | none => unknown
  | some p => ofPosition p

/-- A message with its place before it. Without a line there is none, and a source without a name
is not mentioned. -/
def locate (p : Place) (message : Text) : Text :=
  match p.line with
  | none => message
  | some line =>
    let named := match p.source with
      | some (r :: name) => (r :: name) ++ ":" ++ Text.ofInt line
      | _ => "line " ++ Text.ofInt line
    let full := match p.column with
      | some column => named ++ ":" ++ Text.ofInt column
      | none => named
    full ++ ": " ++ message

end Place

end Kettle
