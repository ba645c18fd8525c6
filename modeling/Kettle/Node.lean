/-
Tree nodes. A node has a kind, a text, children, the position of the token it comes from, and a mark
that says whether it is an operand already (resolved) or still waits for its operands. Equality of
trees does not look at positions.
-/
import Kettle.Token

namespace Kettle

/-- A node of a syntax tree. -/
structure Node where
  kind : Kind
  text : Text
  children : List Node
  resolved : Bool
  pos : Position
  deriving Repr

namespace Node

/-- A resolved node at the position of this one. -/
def into (n : Node) (kind : Kind) (text : Text) (children : List Node) : Node :=
  ⟨kind, text, children, true, n.pos⟩

/-- A resolved node of a given kind, such as a built bracket group. -/
def isResolved (n : Node) (kind : Kind) : Bool := n.resolved && n.kind = kind

/-- A token of a given kind that still waits to be folded. -/
def isLoose (n : Node) (kind : Kind) : Bool := !n.resolved && n.kind = kind

mutual

/-- A copy of a tree, made node by node. -/
def clone : Node → Node
  | ⟨kind, text, children, resolved, pos⟩ => ⟨kind, text, cloneAll children, resolved, pos⟩

/-- Copies of several trees. -/
def cloneAll : List Node → List Node
  | [] => []
  | n :: ns => clone n :: cloneAll ns

end

mutual

@[simp] theorem clone_eq_self : ∀ n : Node, n.clone = n
  | ⟨kind, text, children, resolved, pos⟩ => by rw [clone, cloneAll_eq_self children]

theorem cloneAll_eq_self : ∀ ns : List Node, cloneAll ns = ns
  | [] => rfl
  | n :: ns => by rw [cloneAll, clone_eq_self n, cloneAll_eq_self ns]

end

/-! ## Equality of trees -/

mutual

/-- Whether two trees are equal but for positions. -/
def same : Node → Node → Bool
  | ⟨kind, text, children, resolved, _⟩, ⟨kind', text', children', resolved', _⟩ =>
    kind = kind' && text = text' && resolved = resolved' && sameAll children children'

/-- Whether two lists of trees are equal but for positions. -/
def sameAll : List Node → List Node → Bool
  | [], [] => true
  | n :: ns, n' :: ns' => same n n' && sameAll ns ns'
  | _, _ => false

end

mutual

/-- Whether two trees are equal, their positions included. -/
def decEq : (n n' : Node) → Decidable (n = n')
  | ⟨kind, text, children, resolved, pos⟩, ⟨kind', text', children', resolved', pos'⟩ =>
    let _ := decEqAll children children'
    decidable_of_iff (kind = kind' ∧ text = text' ∧ children = children' ∧ resolved = resolved' ∧ pos = pos')
      (by rw [Node.mk.injEq])

/-- Whether two lists of trees are equal, their positions included. -/
def decEqAll : (ns ns' : List Node) → Decidable (ns = ns')
  | [], [] => isTrue rfl
  | n :: ns, n' :: ns' =>
    let _ := decEq n n'
    let _ := decEqAll ns ns'
    decidable_of_iff (n = n' ∧ ns = ns') (by rw [List.cons.injEq])
  | [], _ :: _ => isFalse nofun
  | _ :: _, [] => isFalse nofun

end

instance : DecidableEq Node := decEq

/-! ## Descendants -/

mutual

/-- A node and its descendants, each before those below it. -/
def preorder : Node → List Node
  | ⟨kind, text, children, resolved, pos⟩ => ⟨kind, text, children, resolved, pos⟩ :: preorderAll children

/-- The nodes of several trees, one tree after the other. -/
def preorderAll : List Node → List Node
  | [] => []
  | n :: ns => preorder n ++ preorderAll ns

end

/-- Puts two lists of levels together, level by level. -/
def mergeLevels : List (List Node) → List (List Node) → List (List Node)
  | [], levels => levels
  | levels, [] => levels
  | level :: levels, level' :: levels' => (level ++ level') :: mergeLevels levels levels'

mutual

/-- The levels of a tree from its root down, each from left to right. -/
def levels : Node → List (List Node)
  | ⟨kind, text, children, resolved, pos⟩ =>
    [⟨kind, text, children, resolved, pos⟩] :: levelsAll children

/-- The levels of several trees side by side. -/
def levelsAll : List Node → List (List Node)
  | [] => []
  | n :: ns => mergeLevels (levels n) (levelsAll ns)

end

/-- The nodes of a tree from its lowest level up, each level from left to right. -/
def bottomUp (n : Node) : List Node := n.levels.reverse.flatten

mutual

/-- The number of levels of a tree. -/
def depth : Node → Nat
  | ⟨_, _, children, _, _⟩ => depthAll children + 1

/-- The number of levels of the deepest of several trees. -/
def depthAll : List Node → Nat
  | [] => 0
  | n :: ns => max (depth n) (depthAll ns)

end

mutual

/-- The number of nodes of a tree. -/
def size : Node → Nat
  | ⟨_, _, children, _, _⟩ => sizeAll children + 1

/-- The number of nodes of several trees. -/
def sizeAll : List Node → Nat
  | [] => 0
  | n :: ns => size n + sizeAll ns

end

theorem size_eq (n : Node) : n.size = sizeAll n.children + 1 := by
  cases n; simp only [size]

theorem sizeAll_append (ns ms : List Node) : sizeAll (ns ++ ms) = sizeAll ns + sizeAll ms := by
  induction ns with
  | nil => simp [sizeAll]
  | cons n ns ih => simp only [List.cons_append, sizeAll, ih]; omega

/-! ## Nodes of tokens -/

/-- The keywords, which become nodes of kinds of their own. -/
def keywords : List (Text × Kind) :=
  [("fn", .function), ("return", .ret), ("break", .brk), ("continue", .cont)]

/-- Whether a token of this kind is an operand by itself. -/
def isOperand : Kind → Bool
  | .ident | .number | .brk | .cont => true
  | k => k.isString

/-- The kind of the node that a token becomes. -/
def kindOf (t : Token) : Kind :=
  if t.kind = .ident then (keywords.lookup t.text).getD .ident else t.kind

/-- The node of a token. -/
def ofToken (t : Token) : Node := ⟨kindOf t, t.text, [], isOperand (kindOf t), t.pos⟩

end Node

end Kettle
