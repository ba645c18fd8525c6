/-
Grouping brackets. From an opening bracket on, nodes are set aside until as many brackets of its own
sort have closed as have opened; brackets of the other sort are ordinary nodes there and are grouped
when the inside is built. The end of the source closes a bracket too, with a complaint.
-/
import Kettle.Node
import Kettle.Fault
import Kettle.Stage

namespace Kettle.Tree

/-- What building a tree hands on. -/
abbrev Events (α : Type) := List (Event Complaint Fault α)

/-- An open bracket: its node, how many brackets of its sort are open, and the nodes since, the
last one first. -/
structure Pending where
  opener : Node
  depth : Nat
  inner : List Node

/-- The sort of an opening bracket. -/
def bracketOf (k : Kind) : Bracket := if k = .lpar then .paren else .brace

namespace Pending

/-- A bracket that has just been opened. -/
def start (n : Node) : Pending := ⟨n, 1, []⟩

/-- One more node inside. -/
def push (p : Pending) (n : Node) : Pending := ⟨p.opener, p.depth, n :: p.inner⟩

/-- The complaint about a bracket that is never closed. -/
def unclosed (p : Pending) : Complaint :=
  ⟨.unclosed (bracketOf p.opener.kind) p.opener.text, p.opener.pos⟩

end Pending

/-- Groups brackets: each pair becomes what `build` makes of the opening bracket and the nodes
inside. -/
def group (build : Node → List Node → Events Node) : Option Pending → Events Node → Events Node
  | none, [] => []
  | some p, [] => .report p.unclosed :: build p.opener p.inner.reverse
  | _, .halt e :: _ => [.halt e]
  | pending, .report r :: rest => .report r :: group build pending rest
  | none, .item n :: rest =>
    if n.kind.closer?.isSome && !n.resolved then group build (some (.start n)) rest
    else .item n :: group build none rest
  | some p, .item n :: rest =>
    if n.kind = p.opener.kind then group build (some ⟨p.opener, p.depth + 1, n :: p.inner⟩) rest
    else if some n.kind = p.opener.kind.closer? then
      if p.depth = 1 then Event.chain (build p.opener p.inner.reverse) (group build none rest)
      else group build (some ⟨p.opener, p.depth - 1, n :: p.inner⟩) rest
    else if n.kind = .eof then
      Event.chain (.report p.unclosed :: build p.opener p.inner.reverse) (group build none rest)
    else group build (some (p.push n)) rest

/-- Induction on nodes that are grouped, with a case for each thing that can come up: outside of all brackets a
bracket that opens or another node; inside of one a bracket of its sort that opens, the bracket that closes it, a
bracket that closes another one inside, the end of the source, or another node. -/
theorem group_induct (build : Node → List Node → Events Node)
    {motive : Option Pending → Events Node → Events Node → Prop}
    (nil : motive none [] [])
    (unclosed : ∀ p, motive (some p) [] (.report p.unclosed :: build p.opener p.inner.reverse))
    (halt : ∀ pending e rest, motive pending (.halt e :: rest) [.halt e])
    (report : ∀ pending r rest, motive pending rest (group build pending rest) →
      motive pending (.report r :: rest) (.report r :: group build pending rest))
    (opening : ∀ n rest, (n.kind.closer?.isSome && !n.resolved) = true →
      motive (some (.start n)) rest (group build (some (.start n)) rest) →
      motive none (.item n :: rest) (group build (some (.start n)) rest))
    (outside : ∀ n rest, ¬ (n.kind.closer?.isSome && !n.resolved) = true →
      motive none rest (group build none rest) → motive none (.item n :: rest) (.item n :: group build none rest))
    (deeper : ∀ p n rest, n.kind = p.opener.kind →
      motive (some ⟨p.opener, p.depth + 1, n :: p.inner⟩) rest
        (group build (some ⟨p.opener, p.depth + 1, n :: p.inner⟩) rest) →
      motive (some p) (.item n :: rest) (group build (some ⟨p.opener, p.depth + 1, n :: p.inner⟩) rest))
    (closing : ∀ p n rest, ¬ n.kind = p.opener.kind → some n.kind = p.opener.kind.closer? → p.depth = 1 →
      motive none rest (group build none rest) →
      motive (some p) (.item n :: rest) (Event.chain (build p.opener p.inner.reverse) (group build none rest)))
    (shallower : ∀ p n rest, ¬ n.kind = p.opener.kind → some n.kind = p.opener.kind.closer? → ¬ p.depth = 1 →
      motive (some ⟨p.opener, p.depth - 1, n :: p.inner⟩) rest
        (group build (some ⟨p.opener, p.depth - 1, n :: p.inner⟩) rest) →
      motive (some p) (.item n :: rest) (group build (some ⟨p.opener, p.depth - 1, n :: p.inner⟩) rest))
    (ending : ∀ p n rest, ¬ n.kind = p.opener.kind → ¬ some n.kind = p.opener.kind.closer? → n.kind = .eof →
      motive none rest (group build none rest) →
      motive (some p) (.item n :: rest)
        (Event.chain (.report p.unclosed :: build p.opener p.inner.reverse) (group build none rest)))
    (inside : ∀ p n rest, ¬ n.kind = p.opener.kind → ¬ some n.kind = p.opener.kind.closer? → ¬ n.kind = .eof →
      motive (some (p.push n)) rest (group build (some (p.push n)) rest) →
      motive (some p) (.item n :: rest) (group build (some (p.push n)) rest))
    (pending : Option Pending) (es : Events Node) : motive pending es (group build pending es) :=
  group.induct_unfolding build motive nil unclosed halt report opening outside deeper closing shallower ending inside
    pending es

/-- Whether a node ends a statement. -/
def isSeparator (n : Node) : Bool := n.isLoose .separator || n.isLoose .eof

/-- A statement that holds something. -/
def flush (current : List Node) : Events (List Node) :=
  if current.isEmpty then [] else [.item current.reverse]

/-- Splits nodes into statements; `current` holds the nodes of the statement so far, the last one
first. A statement that a halt cuts short is lost. -/
def split (current : List Node) : Events Node → Events (List Node)
  | [] => flush current
  | .halt e :: _ => [.halt e]
  | .report r :: rest => .report r :: split current rest
  | .item n :: rest =>
    if isSeparator n then flush current ++ split [] rest else split (n :: current) rest

/-- Induction on nodes that are split. -/
theorem split_induct {motive : List Node → Events Node → Events (List Node) → Prop}
    (nil : ∀ current, motive current [] (flush current))
    (halt : ∀ current e rest, motive current (.halt e :: rest) [.halt e])
    (report : ∀ current r rest, motive current rest (split current rest) →
      motive current (.report r :: rest) (.report r :: split current rest))
    (separator : ∀ current n rest, isSeparator n = true → motive [] rest (split [] rest) →
      motive current (.item n :: rest) (flush current ++ split [] rest))
    (node : ∀ current n rest, ¬ isSeparator n = true → motive (n :: current) rest (split (n :: current) rest) →
      motive current (.item n :: rest) (split (n :: current) rest))
    (current : List Node) (es : Events Node) : motive current es (split current es) :=
  split.induct_unfolding motive nil halt report separator node current es

end Kettle.Tree
