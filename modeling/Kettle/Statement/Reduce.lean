/-
Reducing a statement. A fixed list of reductions, each over the whole statement, turns it into a
single node; a statement that does not become one is at fault.
-/
import Kettle.Node.Show
import Kettle.Fault
import Kettle.Statement.Infix
import Kettle.Statement.Whole

namespace Kettle.Statement

/-- The reductions of a statement. -/
inductive Reduction where
  | functions | calls | groups | signs
  | tier (t : Tier)
  | commas | assignments | returns | compounds
  deriving DecidableEq, Repr

namespace Reduction

/-- The reductions in the order in which they are applied. -/
def all : List Reduction :=
  [functions, calls, groups, signs, tier .product, tier .sum, tier .comparison, tier .logic,
   tier .listing, commas, assignments, returns, compounds]

/-- What a reduction does. -/
def apply : Reduction → Statement → Statement
  | functions => formFunctions
  | calls => formCalls
  | groups => stripGroups
  | signs => attachSigns false
  | tier t => foldLeft t.has
  | commas => flattenCommas
  | assignments => foldRight isAssignment
  | returns => attachReturns
  | compounds => expandTrees

end Reduction

/-- A statement after all reductions. -/
def reduce (s : Statement) : Statement := Reduction.all.foldl (fun s r => r.apply s) s

/-- A statement after all reductions but the last one, which writes compound assignments out. -/
def fold (s : Statement) : Statement := Reduction.all.dropLast.foldl (fun s r => r.apply s) s

/-- Whether the targets that are copied when the compound assignments of a statement are written out have more than
`limit` levels. -/
def copiesTooDeep (limit : Nat) (s : Statement) : Bool := (copied s).any fun target => limit < target.depth

/-- Whether the operands that a complaint about a reduced statement writes out have more than `limit` levels. -/
def writesTooDeep (limit : Nat) (s : Statement) : Bool :=
  s.all Node.resolved && 1 < s.length && s.any fun n => limit < n.depth

/-- Whether working on a statement goes down more than `limit` levels, which is too much: where it copies what
compound assignments assign to, or where it writes out several operands in a complaint. Nothing else about a
statement depends on how deep its nodes are. -/
def exhausts (limit : Nat) (s : Statement) : Bool := s.fold.copiesTooDeep limit || s.reduce.writesTooDeep limit

/-- The earliest of some nodes; of those at one position, the first. -/
def earliest? : List Node → Option Node
  | [] => none
  | n :: ns =>
    match earliest? ns with
    | none => some n
    | some m => some (if m.pos.before n.pos then m else n)

/-- The complaint about an operator that got no operands. -/
def misplaced (n : Node) : Complaint := ⟨.misplaced n.text, n.pos⟩

/-- The node that a reduced statement is, if it is one and nothing in it is left unresolved. No
statement is empty, and so the fault of an empty one has no place. A statement that `exhausts` the limit on
nodes never gets here. -/
def check (s : Statement) : Except Complaint Node :=
  match s.find? fun n => !n.resolved with
  | some loose => .error (misplaced loose)
  | none =>
    match s with
    | [] => .error ⟨.unreduced [], .start []⟩
    | [n] =>
      match earliest? (n.bottomUp.filter fun m => !m.resolved) with
      | some loose => .error (misplaced loose)
      | none => .ok n
    | n :: _ => .error ⟨.unreduced (Text.join " " (s.map Node.compact)), n.pos⟩

/-- A statement on one line: its nodes with labels, the unresolved ones with a question mark. -/
def describe (s : Statement) : Text :=
  Text.join " " (s.map fun n => (if n.resolved then Text.ofString "" else "?") ++ n.labelled)

/-- The reductions that change how a statement looks, each with what it leaves. -/
def trace (s : Statement) : List (Reduction × Statement) :=
  let rec go (s : Statement) : List Reduction → List (Reduction × Statement)
    | [] => []
    | r :: rs =>
      let t := r.apply s
      if describe t = describe s then go t rs else (r, t) :: go t rs
  go s Reduction.all

end Kettle.Statement
