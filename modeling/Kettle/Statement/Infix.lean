/-
The reductions that fold operators between two operands. Each folds the first place it can, from the
left or from the right, and looks again from the start until there is no such place.
-/
import Kettle.Statement.Operand

namespace Kettle.Statement

/-- Whether an operator of the set stands between two operands. -/
def canFold (operators : Kind → Bool) (x op y : Node) : Bool :=
  !op.resolved && operators op.kind && x.resolved && y.resolved

/-- An operator with its two operands. -/
def operation (x op y : Node) : Node := op.into op.kind op.text [x, y]

/-- Folds the leftmost place that can be folded. -/
def foldLeftmost? (operators : Kind → Bool) : Statement → Option Statement
  | x :: op :: y :: rest =>
    if canFold operators x op y then some (operation x op y :: rest)
    else (foldLeftmost? operators (op :: y :: rest)).map (x :: ·)
  | _ => none

/-- Induction on a statement whose leftmost operator is folded: at its start, further on, or nowhere as it is too
short. -/
theorem foldLeftmost?_induct (operators : Kind → Bool) {motive : Statement → Option Statement → Prop}
    (here : ∀ x op y rest, canFold operators x op y = true →
      motive (x :: op :: y :: rest) (some (operation x op y :: rest)))
    (later : ∀ x op y rest, ¬ canFold operators x op y = true →
      motive (op :: y :: rest) (foldLeftmost? operators (op :: y :: rest)) →
      motive (x :: op :: y :: rest) ((foldLeftmost? operators (op :: y :: rest)).map (x :: ·)))
    (short : ∀ s : Statement, (∀ x op y rest, s = x :: op :: y :: rest → False) → motive s none)
    (s : Statement) : motive s (foldLeftmost? operators s) :=
  foldLeftmost?.induct_unfolding operators motive here later short s

/-- Folds the rightmost place that can be folded. -/
def foldRightmost? (operators : Kind → Bool) : Statement → Option Statement
  | x :: op :: y :: rest =>
    match foldRightmost? operators (op :: y :: rest) with
    | some s => some (x :: s)
    | none => if canFold operators x op y then some (operation x op y :: rest) else none
  | _ => none

/-- Induction on a statement whose rightmost operator is folded: further on, at its start, nowhere, or nowhere as it
is too short. -/
theorem foldRightmost?_induct (operators : Kind → Bool) {motive : Statement → Option Statement → Prop}
    (later : ∀ x op y rest s, foldRightmost? operators (op :: y :: rest) = some s →
      motive (op :: y :: rest) (foldRightmost? operators (op :: y :: rest)) →
      motive (x :: op :: y :: rest) (some (x :: s)))
    (here : ∀ x op y rest, foldRightmost? operators (op :: y :: rest) = none → canFold operators x op y = true →
      motive (op :: y :: rest) (foldRightmost? operators (op :: y :: rest)) →
      motive (x :: op :: y :: rest) (some (operation x op y :: rest)))
    (nowhere : ∀ x op y rest, foldRightmost? operators (op :: y :: rest) = none → ¬ canFold operators x op y = true →
      motive (op :: y :: rest) (foldRightmost? operators (op :: y :: rest)) →
      motive (x :: op :: y :: rest) none)
    (short : ∀ s : Statement, (∀ x op y rest, s = x :: op :: y :: rest → False) → motive s none)
    (s : Statement) : motive s (foldRightmost? operators s) :=
  foldRightmost?.induct_unfolding operators motive later here nowhere short s

theorem foldLeftmost?_length {operators : Kind → Bool} {s t : Statement}
    (h : foldLeftmost? operators s = some t) : t.length + 2 = s.length := by
  fun_induction foldLeftmost? operators s generalizing t <;> grind [Option.map_eq_some_iff]

theorem foldRightmost?_length {operators : Kind → Bool} {s t : Statement}
    (h : foldRightmost? operators s = some t) : t.length + 2 = s.length := by
  fun_induction foldRightmost? operators s generalizing t <;> grind

/-- Folds the operators of a set, the leftmost first. -/
def foldLeft (operators : Kind → Bool) (s : Statement) : Statement :=
  match h : foldLeftmost? operators s with
  | none => s
  | some t =>
    have := foldLeftmost?_length h
    foldLeft operators t
termination_by s.length

/-- Folds the operators of a set, the rightmost first. -/
def foldRight (operators : Kind → Bool) (s : Statement) : Statement :=
  match h : foldRightmost? operators s with
  | none => s
  | some t =>
    have := foldRightmost?_length h
    foldRight operators t
termination_by s.length

/-- The operators that group to the left, by how tightly they bind, the tightest first. -/
inductive Tier where
  | product | sum | comparison | logic | listing
  deriving DecidableEq, Repr

/-- Whether an operator belongs to a tier. -/
def Tier.has : Tier → Kind → Bool
  | product, .star | product, .slash | product, .mod => true
  | sum, .plus | sum, .minus => true
  | comparison, .lt | comparison, .gt | comparison, .lte | comparison, .gte | comparison, .eq
  | comparison, .neq => true
  | logic, .and | logic, .or => true
  | listing, .comma => true
  | _, _ => false

/-- Whether an operator assigns, plainly or with an operation. -/
def isAssignment (k : Kind) : Bool := k = .assign || k.compound?.isSome

end Kettle.Statement
