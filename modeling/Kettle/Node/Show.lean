/-
The written forms of trees: the compact form of texts only, the labelled form that names kinds, the
full form with every field but the position, and the indented form of one node a line.
-/
import Kettle.Node

namespace Kettle.Node

/-- A kind and a text. -/
def labelOf (kind : Kind) (text : Text) : Text := kind.name ++ "<" ++ text ++ ">"

/-- A node with its kind and text. -/
def label (n : Node) : Text := labelOf n.kind n.text

/-- An operator form of a head and the written children, each after a blank; a head without children
stands alone. -/
def wrap (head tail : Text) (leaf : Bool) : Text := if leaf then head else "(" ++ head ++ tail ++ ")"

mutual

/-- The compact form: `(+ 1 (* 2 3))`. -/
def compact : Node → Text
  | ⟨_, text, children, _, _⟩ => wrap text (compactAll children) children.isEmpty

/-- The compact forms of several trees, each after a blank. -/
def compactAll : List Node → Text
  | [] => []
  | n :: ns => " " ++ compact n ++ compactAll ns

end

mutual

/-- The labelled form: `(PLUS<+> NUMBER<1> NUMBER<2>)`. -/
def labelled : Node → Text
  | ⟨kind, text, children, _, _⟩ => wrap (labelOf kind text) (labelledAll children) children.isEmpty

/-- The labelled forms of several trees, each after a blank. -/
def labelledAll : List Node → Text
  | [] => []
  | n :: ns => " " ++ labelled n ++ labelledAll ns

end

/-- How a mark is written in the full form. -/
def markText (b : Bool) : Text := if b then "True" else "False"

mutual

/-- The full form, with every field but the position. -/
def full : Node → Text
  | ⟨kind, text, children, resolved, _⟩ =>
    "Node(" ++ kind.name ++ ", " ++ Text.quoted text ++ ", resolved=" ++ markText resolved
      ++ ", children=[" ++ Text.join ", " (fullAll children) ++ "])"

/-- The full forms of several trees. -/
def fullAll : List Node → List Text
  | [] => []
  | n :: ns => full n :: fullAll ns

end

/-- Two blanks for each level. -/
def indent (level : Nat) : Text := List.replicate (2 * level) ' '

mutual

/-- The indented form, from a given level. -/
def indented (level : Nat) : Node → Text
  | ⟨kind, text, children, _, _⟩ =>
    indent level ++ labelOf kind text ++ "\n" ++ indentedAll (level + 1) children

/-- The indented forms of several trees, one below the other. -/
def indentedAll (level : Nat) : List Node → Text
  | [] => []
  | n :: ns => indented level n ++ indentedAll level ns

end

end Kettle.Node
