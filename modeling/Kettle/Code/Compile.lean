/-
Compiling trees. Every node kind has the shape it needs checked here, in the order of the source, so
code that exists can only fail with a runtime fault.
-/
import Kettle.Code
import Kettle.Node.Show
import Kettle.Literal.Escape
import Kettle.Literal.Number

namespace Kettle.Code

/-- A compile fault at a node. -/
def fault {α : Type} (n : Node) (cause : CompileCause) : Except Fault α := .error (.compile cause n.pos)

/-- The two operands of a node. -/
def two (n : Node) (what : Text) : Except Fault (Node × Node) :=
  match n.children with
  | [left, right] => .ok (left, right)
  | children => fault n (.operandCount what 2 children.length)

/-- The operand of a node. -/
def one (n : Node) (what : Text) : Except Fault Node :=
  match n.children with
  | [operand] => .ok operand
  | children => fault n (.operandCount what 1 children.length)

/-- What an operator is called in a fault. -/
def operatorText (symbol : Text) : Text := "operator " ++ Text.quoted symbol

/-- The name that an assignment binds. -/
def target (n : Node) : Except Fault Text :=
  if n.kind ≠ .ident then fault n (.targetNotName n.compact)
  else if (Literal.ofName? n.text).isSome then fault n (.targetReserved n.text)
  else .ok n.text

/-- The entries of a list in parentheses: none, those of the comma list it holds, or the one
expression it holds. -/
def entries (list : Listing) (group : Node) : Except Fault (List Node) :=
  if group.kind ≠ .lpar then .ok [group]
  else match group.children with
    | [] => .ok []
    | [only] => .ok (if only.kind = .comma then only.children else [only])
    | _ => fault group (.brokenList list)

/-- The names of parameters, which must differ; `seen` holds those before them. -/
def names (seen : List Text) : List Node → Except Fault (List Text)
  | [] => .ok seen
  | n :: ns =>
    if n.kind ≠ .ident then fault n (.paramNotName n.compact)
    else if seen.contains n.text then fault n (.paramRepeated n.text)
    else names (seen ++ [n.text]) ns

/-- The names in a parameter list. -/
def params (n : Node) : Except Fault (List Text) := do
  if n.kind ≠ .lpar then fault n .paramsNotGrouped
  else names [] (← entries .params n)

/-- The code of a node, which may be `depth` levels deep; `top` is where a deeper tree is at fault. -/
def compileAt (limits : Limits) (top : Position) : (depth : Nat) → Node → Except Fault Code
  | 0, _ => .error (.compile .nestedTooDeeply top)
  | depth + 1, n => do
    let sub := compileAt limits top depth
    match n.kind with
    | .lbrace => return .block (← n.children.mapM sub)
    | .lpar =>
      match n.children with
      | [] => return .tuple []
      | [only] => sub only
      | _ :: second :: _ => fault second .crowdedGroup
    | .comma => return .tuple (← n.children.mapM sub)
    | .ident =>
      match Literal.ofName? n.text with
      | some l => return .literal l
      | none => return .lookup n.text
    | .number => return .literal (← Literal.ofNumber limits n.text n.pos)
    | .doubleQuoted | .singleQuoted | .backquoted =>
      return .literal (← Literal.ofString n.kind n.text n.pos)
    | .assign =>
      let (left, right) ← two n "assignment"
      let name ← target left
      return .assign name (← sub right)
    | .and =>
      let (left, right) ← two n (operatorText "&&")
      let left ← sub left
      return .and left (← sub right)
    | .or =>
      let (left, right) ← two n (operatorText "||")
      let left ← sub left
      return .or left (← sub right)
    | .not => return .not (← sub (← one n (operatorText "!")))
    | .neg => return .negate n.pos (← sub (← one n (operatorText "-")))
    | .function =>
      match n.children with
      | [list, body] =>
        let names ← params list
        if body.kind ≠ .lbrace then fault body .bodyNotBlock
        else return .function names body (← sub body)
      | _ => fault n .functionParts
    | .apply =>
      match n.children with
      | [callee, list] =>
        let callee ← sub callee
        return .apply n.pos callee (← (← entries .args list).mapM sub)
      | _ => fault n .callParts
    | .ret =>
      match n.children with
      | [] => return .ret (.literal .nil)
      | [operand] => return .ret (← sub operand)
      | _ => fault n .returnOperands
    | .brk => return .jump .brk
    | .cont => return .jump .cont
    | kind =>
      match Operator.ofKind? kind with
      | some op =>
        let (left, right) ← two n (operatorText op.symbol)
        let left ← sub left
        return .binary op n.pos left (← sub right)
      | none => fault n (.uncompilable kind n.text)

/-- The code of a tree. -/
def compile (limits : Limits) (n : Node) : Except Fault Code := compileAt limits n.pos limits.nodes n

end Kettle.Code
