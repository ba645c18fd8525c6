/-
The reductions that make operands: function literals, calls, parentheses around one expression, and
the operators that stand before their operand.
-/
import Kettle.Node

namespace Kettle

/-- The nodes of a statement, from left to right. -/
abbrev Statement := List Node

namespace Statement

/-- Whether two nodes are `fn` and its parameter group. -/
def isFunctionHead (n params : Node) : Bool := n.isLoose .function && params.isResolved .lpar

/-- Folds a parameter group after `fn`, and a block after that if there is one, into a function. -/
def formFunctions : Statement → Statement
  | [] => []
  | [n] => [n]
  | [n, params] => if isFunctionHead n params then [n.into .function n.text [params]] else [n, params]
  | n :: params :: body :: rest =>
    if isFunctionHead n params then
      if body.isResolved .lbrace then n.into .function n.text [params, body] :: formFunctions rest
      else n.into .function n.text [params] :: formFunctions (body :: rest)
    else n :: formFunctions (params :: body :: rest)

/-- Induction on a statement whose functions are folded: `fn` and its parameters stand at the end, before a block or
before something else. -/
theorem formFunctions_induct {motive : Statement → Statement → Prop}
    (nil : motive [] [])
    (single : ∀ n, motive [n] [n])
    (headAtEnd : ∀ n params, isFunctionHead n params = true →
      motive [n, params] [n.into .function n.text [params]])
    (pair : ∀ n params, ¬ isFunctionHead n params = true → motive [n, params] [n, params])
    (withBody : ∀ n params body rest, isFunctionHead n params = true → body.isResolved .lbrace = true →
      motive rest (formFunctions rest) →
      motive (n :: params :: body :: rest) (n.into .function n.text [params, body] :: formFunctions rest))
    (withoutBody : ∀ n params next rest, isFunctionHead n params = true → ¬ next.isResolved .lbrace = true →
      motive (next :: rest) (formFunctions (next :: rest)) →
      motive (n :: params :: next :: rest) (n.into .function n.text [params] :: formFunctions (next :: rest)))
    (other : ∀ n second third rest, ¬ isFunctionHead n second = true →
      motive (second :: third :: rest) (formFunctions (second :: third :: rest)) →
      motive (n :: second :: third :: rest) (n :: formFunctions (second :: third :: rest)))
    (s : Statement) : motive s (formFunctions s) :=
  formFunctions.induct_unfolding motive nil single headAtEnd pair withBody withoutBody other s

/-- Whether a parenthesis after this node makes a call. -/
def isCallee (n : Node) : Bool :=
  n.resolved && (n.kind = .ident || n.kind = .apply || n.kind = .function || n.kind = .lpar)

/-- Folds the argument groups after a node into calls of it, and goes on behind them. -/
def formCallsAfter (callee : Node) : Statement → Statement
  | [] => [callee]
  | n :: rest =>
    if n.isResolved .lpar && isCallee callee then
      formCallsAfter (callee.into .apply "call" [callee, n]) rest
    else callee :: formCallsAfter n rest

/-- Induction on the nodes after a callee. -/
theorem formCallsAfter_induct {motive : Node → Statement → Statement → Prop}
    (nil : ∀ callee, motive callee [] [callee])
    (call : ∀ callee n rest, (n.isResolved .lpar && isCallee callee) = true →
      motive (callee.into .apply "call" [callee, n]) rest
        (formCallsAfter (callee.into .apply "call" [callee, n]) rest) →
      motive callee (n :: rest) (formCallsAfter (callee.into .apply "call" [callee, n]) rest))
    (other : ∀ callee n rest, ¬ (n.isResolved .lpar && isCallee callee) = true →
      motive n rest (formCallsAfter n rest) → motive callee (n :: rest) (callee :: formCallsAfter n rest))
    (callee : Node) (s : Statement) : motive callee s (formCallsAfter callee s) :=
  formCallsAfter.induct_unfolding motive nil call other callee s

/-- Folds callees and the argument groups after them into calls, nested to the left. -/
def formCalls : Statement → Statement
  | [] => []
  | n :: rest => formCallsAfter n rest

/-- The expression in a parenthesis that holds just one; any other node is itself. Empty groups,
groups of several statements and tuples keep their parentheses. -/
def stripGroup (n : Node) : Node :=
  match n.children with
  | [only] => if n.isResolved .lpar && only.kind ≠ .comma then only else n
  | _ => n

/-- Takes the parentheses off single expressions. -/
def stripGroups (s : Statement) : Statement := s.map stripGroup

/-- The kind that an operator has before its operand. -/
def unary? : Kind → Option Kind
  | .not => some .not
  | .minus => some .neg
  | _ => none

/-- Folds an operator into the operand after it, if it is an operator that can stand there. -/
def attachSign (afterOperand : Bool) (n : Node) : Statement → Statement
  | [] => [n]
  | operand :: rest =>
    match unary? n.kind with
    | some kind =>
      if !n.resolved && operand.resolved && !afterOperand then
        n.into kind n.text [operand] :: rest
      else n :: operand :: rest
    | none => n :: operand :: rest

/-- Folds operators that stand before their operand, from right to left, unless an operand stands
before them; `afterOperand` says whether one stands before the statement's first node. -/
def attachSigns (afterOperand : Bool) : Statement → Statement
  | [] => []
  | n :: rest => attachSign afterOperand n (attachSigns n.resolved rest)

end Statement

end Kettle
