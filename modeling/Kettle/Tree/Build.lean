/-
Building the tree of a source. Nodes are grouped by brackets, split into statements, and each
statement is reduced and checked; the inside of every bracket is built in the same way. A statement
that does not reduce is reported and left out. Brackets inside too many brackets stop the building,
and so does a statement whose nodes are too deep to be copied or written out.
-/
import Kettle.Limits
import Kettle.Token.Scan
import Kettle.Statement.Reduce
import Kettle.Tree.Bracket

namespace Kettle.Tree

/-- The fault of brackets inside too many brackets, and of nodes that are too deep. -/
def tooDeep (source : Text) : Fault := .grammar .nestedTooDeeply (.start source)

/-- Reduces and checks one statement. -/
def settle (limits : Limits) (source : Text) (s : Statement) : Events Node :=
  if s.exhausts limits.nodes then [.halt (tooDeep source)]
  else match s.reduce.check with
    | .ok n => [.item n]
    | .error c => [.report c]

/-- The nodes of the statements among grouped nodes. -/
def statements (limits : Limits) (source : Text) (nodes : Events Node) : Events Node :=
  Event.each (settle limits source) (split [] nodes)

/-- What building comes to: the complaints in the order in which they came up, and a node or the
fault that stopped the building. -/
structure Built where
  complaints : List Complaint
  result : Except Fault Node

/-- The events of a finished building. -/
def Built.events (b : Built) : Events Node :=
  b.complaints.map .report ++ [match b.result with
    | .ok n => .item n
    | .error e => .halt e]

/-- The bracket group around the nodes that some events leave. -/
def close (opener : Node) (events : Events Node) : Built :=
  ⟨Event.reports events, (Event.outcome events).map (opener.into opener.kind opener.text)⟩

/-- Builds the group of an opening bracket from the nodes inside, which may hold brackets down to
`depth` more levels. -/
def build (limits : Limits) : (depth : Nat) → Node → List Node → Built
  | 0, opener, _ => ⟨[], .error (tooDeep opener.pos.source)⟩
  | depth + 1, opener, inner =>
    close opener (statements limits opener.pos.source
      (group (fun n ns => (build limits depth n ns).events) none (inner.map .item)))

/-- The nodes of a scan: comments are left out, and a lexical fault is a halt. -/
def nodes (s : Scan) : Events Node :=
  let ofTokens (ts : List Token) : Events Node :=
    (ts.filter fun t => !t.kind.isComment).map fun t => .item (.ofToken t)
  match s.ending with
  | .finished pos => ofTokens (s.tokens ++ [⟨.eof, [], pos⟩])
  | .failed cause pos => ofTokens s.tokens ++ [.halt (.lexical cause pos)]

/-- The node around a whole source. -/
def root (source : Text) : Node := ⟨.lbrace, "\x7b", [], true, .start source⟩

/-- Groups the brackets of some nodes and builds what is inside them. -/
def groupAll (limits : Limits) (events : Events Node) : Events Node :=
  group (fun n ns => (build limits limits.brackets n ns).events) none events

end Kettle.Tree

namespace Kettle

/-- Parses a source: builds the tree of its tokens. -/
def parse (limits : Limits) (source text : Text) : Tree.Built :=
  Tree.close (Tree.root source)
    (Tree.statements limits source (Tree.groupAll limits (Tree.nodes (scan source text))))

end Kettle
