/-
The reductions that finish a statement: comma lists become flat, `return` takes what stands after
it, and compound assignments are written out.
-/
import Kettle.Statement.Operand

namespace Kettle.Statement

/-- A comma list whose first element is a comma list takes over its elements and its place, as often
as needed. -/
def flattenComma (n : Node) : Node :=
  match _children : n.children with
  | [] => n
  | head :: tail =>
    if n.isResolved .comma && head.kind = .comma then
      flattenComma (head.into .comma head.text (head.children ++ tail))
    else n
termination_by n.size
decreasing_by
  rw [Node.size_eq n, _children]
  simp only [Node.into, Node.size, Node.sizeAll, Node.sizeAll_append, Node.size_eq head]
  omega

/-- Induction on a node that is made flat: it has no children, its first child is a list inside the list, or it is
flat. -/
theorem flattenComma_induct {motive : Node → Node → Prop}
    (leaf : ∀ n : Node, n.children = [] → motive n n)
    (nested : ∀ (n head : Node) (tail : List Node), n.children = head :: tail →
      (n.isResolved .comma && head.kind = .comma) = true →
      motive (head.into .comma head.text (head.children ++ tail))
        (flattenComma (head.into .comma head.text (head.children ++ tail))) →
      motive n (flattenComma (head.into .comma head.text (head.children ++ tail))))
    (flat : ∀ (n head : Node) (tail : List Node), n.children = head :: tail →
      ¬ (n.isResolved .comma && head.kind = .comma) = true → motive n n)
    (n : Node) : motive n (flattenComma n) :=
  flattenComma.induct_unfolding motive leaf nested flat n

/-- Makes comma lists flat. -/
def flattenCommas (s : Statement) : Statement := s.map flattenComma

/-- Folds `return` into what stands after it; at the end of the statement it stands alone. -/
def attachReturn (n : Node) (rest : Statement) : Statement :=
  if n.isLoose .ret then
    match rest with
    | [] => [n.into .ret n.text []]
    | operand :: after =>
      if operand.resolved then n.into .ret n.text [operand] :: after else n :: rest
  else n :: rest

/-- Folds every `return`, from right to left. -/
def attachReturns : Statement → Statement
  | [] => []
  | n :: rest => attachReturn n (attachReturns rest)

/-- A compound assignment `x op= y` as `x = (x op y)`, with a copy of `x`; any other node is itself. -/
def expandCompound (n : Node) : Node :=
  match n.kind.compound?, n.children with
  | some op, [target, value] =>
    if n.resolved then n.into .assign "=" [target, n.into op n.text.dropLast [target.clone, value]] else n
  | _, _ => n

mutual

/-- A tree with its compound assignments written out. -/
def expandTree : Node → Node
  | ⟨kind, text, children, resolved, pos⟩ =>
    expandCompound ⟨kind, text, expandTrees children, resolved, pos⟩

/-- Several trees with their compound assignments written out. -/
def expandTrees : List Node → List Node
  | [] => []
  | n :: ns => expandTree n :: expandTrees ns

end

/-- What is copied when the compound assignments of some trees are written out: their targets, in which those are
written out already. -/
def copied (ns : List Node) : List Node :=
  (Node.preorderAll ns).filterMap fun n =>
    match n.kind.compound?, n.children with
    | some _, [target, _] => if n.resolved then some (expandTree target) else none
    | _, _ => none

end Kettle.Statement
