/-
Values. A function keeps the scope it was made in. A flow signal is what a computation gives that was
left early; evaluation hands it on and never keeps it.
-/
import Kettle.Code
import Kettle.Decimal.Layout
import Kettle.Decimal.Read

namespace Kettle

/-- The number of a scope in its store. -/
abbrev ScopeId := Nat

/-- A function: its parameters, the tree of its body, the code of that, and the scope it was made in. -/
structure Function where
  params : List Text
  body : Node
  code : Code
  scope : ScopeId

/-- What evaluation gives. -/
inductive Value where
  | nil
  | bool (b : Bool)
  | int (n : Int)
  | float (x : Float)
  | str (t : Text)
  | tuple (items : List Value)
  | fn (f : Function)
  | flow (kind : FlowKind) (payload : Value)

instance : Inhabited Value := ⟨.nil⟩

/-- How a flow signal is called. -/
def FlowKind.name : FlowKind → Text
  | ret => "return"
  | brk => "break"
  | cont => "continue"

/-- The value of a literal. -/
def Literal.value : Literal → Value
  | nil => .nil
  | bool b => .bool b
  | int n => .int n
  | float x => .float x
  | str t => .str t

/-- How a function is written. -/
def Function.shown (f : Function) : Text :=
  "<fn params=" ++ (if f.params.isEmpty then Text.ofString "nullary" else Text.join ", " f.params) ++ ">"

namespace Value

/-- Whether a value is a flow signal. -/
def isFlow : Value → Bool
  | flow .. => true
  | _ => false

/-- The name of a value's type. -/
def typeName : Value → Text
  | nil => "nil"
  | bool _ => "bool"
  | int _ => "int"
  | float _ => "float"
  | str _ => "string"
  | tuple _ => "tuple"
  | fn _ => "function"
  | flow kind _ => kind.name

mutual

/-- A value as it is written out. -/
def shown : Value → Text
  | nil => "nil"
  | bool b => if b then "true" else "false"
  | int n => Text.ofInt n
  | float x => Decimal.ofFloat x
  | str t => "\"" ++ t ++ "\""
  | tuple items => "(" ++ Text.join ", " (shownAll items) ++ ")"
  | fn f => f.shown
  | flow kind nil => "<" ++ kind.name ++ ">"
  | flow kind payload => "<" ++ kind.name ++ " " ++ shown payload ++ ">"

/-- Several values as they are written out. -/
def shownAll : List Value → List Text
  | [] => []
  | v :: vs => shown v :: shownAll vs

end

mutual

/-- The number of levels of a value: its tuples and signals inside one another, and what is in the innermost. -/
def depth : Value → Nat
  | tuple items => depthAll items + 1
  | flow _ payload => depth payload + 1
  | _ => 1

/-- The number of levels of the deepest of several values. -/
def depthAll : List Value → Nat
  | [] => 0
  | v :: vs => max (depth v) (depthAll vs)

end

/-- A value as it is written out, if it has no more than `limit` levels. -/
def shown? (limit : Nat) (v : Value) : Option Text := if limit < v.depth then none else some v.shown

mutual

/-- Whether two values have the same type and the same contents. Functions are never the same, since
each is made anew. -/
def same : Value → Value → Bool
  | nil, nil => true
  | bool a, bool b => a = b
  | int a, int b => a = b
  | float a, float b => a == b
  | str a, str b => a = b
  | tuple as, tuple bs => sameAll as bs
  | flow k a, flow k' b => k = k' && same a b
  | _, _ => false

/-- Whether two lists of values are the same, one by one. -/
def sameAll : List Value → List Value → Bool
  | [], [] => true
  | a :: as, b :: bs => same a b && sameAll as bs
  | _, _ => false

end

/-- Whether a value counts as true: only `false`, the empty tuple and tuples whose first element
counts as false do not. There is no answer for tuples nested deeper than `depth`. -/
def truth? : (depth : Nat) → Value → Option Bool
  | _, bool b => some b
  | _, tuple [] => some false
  | 0, tuple (_ :: _) => none
  | depth + 1, tuple (first :: _) => truth? depth first
  | _, _ => some true

end Value

end Kettle
