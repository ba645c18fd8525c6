/-
The two folds of operators as single passes. Folding the leftmost place again and again is one pass
from the left, which goes on with the folded node in place of its three; folding the rightmost place
again and again is one pass from the right. A node that is neither an operand nor an operator of the
set is never touched, so that a fold works on the parts of a statement between such nodes.
-/
import Kettle.Statement.Infix
import Mathlib.Tactic.Common

namespace Kettle.Statement

variable {ops : Kind → Bool} {x op y : Node} {s t : Statement}

@[simp] theorem operation_resolved (x op y : Node) : (operation x op y).resolved = true := rfl

@[simp] theorem operation_kind (x op y : Node) : (operation x op y).kind = op.kind := rfl

theorem canFold_iff :
    canFold ops x op y = true ↔
      op.resolved = false ∧ ops op.kind = true ∧ x.resolved = true ∧ y.resolved = true := by
  simp [canFold, and_assoc]

/-! ## Folding from the left -/

theorem foldLeft_of_none (h : foldLeftmost? ops s = none) : foldLeft ops s = s := by
  rw [foldLeft]
  split
  · rfl
  · rename_i t ht; rw [h] at ht; cases ht

theorem foldLeft_of_some (h : foldLeftmost? ops s = some t) : foldLeft ops s = foldLeft ops t := by
  rw [foldLeft]
  split
  · rename_i hn; rw [h] at hn; cases hn
  · rename_i u hu; rw [h] at hu; cases hu; rfl

@[simp] theorem foldLeft_nil : foldLeft ops [] = [] := foldLeft_of_none rfl

@[simp] theorem foldLeft_singleton : foldLeft ops [x] = [x] := foldLeft_of_none rfl

@[simp] theorem foldLeft_pair : foldLeft ops [x, y] = [x, y] := foldLeft_of_none rfl

/-- One fold keeps the first node, or replaces an operand by an operand. -/
theorem foldLeftmost?_head (h : foldLeftmost? ops (x :: s) = some t) :
    ∃ x' t', t = x' :: t' ∧ x'.resolved = x.resolved := by
  match s, h with
  | op :: y :: rest, h =>
    rw [foldLeftmost?] at h
    split at h
    · rename_i hc
      cases h
      exact ⟨_, rest, rfl, by rw [(canFold_iff.1 hc).2.2.1]; rfl⟩
    · obtain ⟨u, -, rfl⟩ := Option.map_eq_some_iff.1 h
      exact ⟨x, u, rfl, rfl⟩
  | [_], h => cases h
  | [], h => cases h

/-- The first node of a statement does not take part in a fold, now or after any folds behind it. -/
def Aside (ops : Kind → Bool) (x : Node) (s : Statement) : Prop :=
  ∀ op y rest, s = op :: y :: rest → canFold ops x op y = false

theorem Aside.step (h : Aside ops x s) (hs : foldLeftmost? ops s = some t) : Aside ops x t := by
  rintro op' y' rest' rfl
  match s, hs with
  | op :: y :: z :: rest, hs =>
    rw [foldLeftmost?] at hs
    split at hs
    · -- the new first node is an operand, and `x` would need an operator there
      cases hs; simp [canFold]
    · obtain ⟨u, hu, he⟩ := Option.map_eq_some_iff.1 hs
      obtain ⟨y₁, u', rfl, hy⟩ := foldLeftmost?_head hu
      cases he
      have hxy := h _ y _ rfl
      unfold canFold at hxy ⊢
      rwa [hy]
  | [_, _], hs => cases hs
  | [_], hs => cases hs
  | [], hs => cases hs

/-- A first node that stands aside stays where it is. -/
theorem foldLeft_cons_of_aside {s : Statement} (h : Aside ops x s) :
    foldLeft ops (x :: s) = x :: foldLeft ops s := by
  cases hs : foldLeftmost? ops s with
  | none =>
    rw [foldLeft_of_none hs, foldLeft_of_none]
    match s with
    | op :: y :: rest => rw [foldLeftmost?, h op y rest rfl, hs]; rfl
    | [_] => rfl
    | [] => rfl
  | some t =>
    -- the same fold is made behind `x`, and `x` still stands aside
    have hlen := foldLeftmost?_length hs
    have hx : foldLeftmost? ops (x :: s) = some (x :: t) := by
      match s with
      | op :: y :: rest => rw [foldLeftmost?, h op y rest rfl, hs]; rfl
      | [_] => cases hs
      | [] => cases hs
    rw [foldLeft_of_some hx, foldLeft_of_some hs, foldLeft_cons_of_aside (h.step hs)]
termination_by s.length

/-- Folding from the left is one pass: where the first three nodes fold, it goes on with what they
become, and else with the nodes after the first. -/
theorem foldLeft_cons_cons_cons (rest : Statement) :
    foldLeft ops (x :: op :: y :: rest) =
      if canFold ops x op y then foldLeft ops (operation x op y :: rest)
      else x :: foldLeft ops (op :: y :: rest) := by
  split
  · rename_i h
    exact foldLeft_of_some (by rw [foldLeftmost?, if_pos h])
  · rename_i h
    refine foldLeft_cons_of_aside ?_
    rintro op' y' rest' he
    cases he
    simpa using h

theorem foldLeft_cons_of_loose (hx : x.resolved = false) (s : Statement) :
    foldLeft ops (x :: s) = x :: foldLeft ops s :=
  foldLeft_cons_of_aside fun _ _ _ _ => by simp [canFold, hx]

theorem foldLeft_ne_nil : ∀ (x : Node) (s : Statement), foldLeft ops (x :: s) ≠ []
  | x, [] => by simp
  | x, [_] => by simp
  | x, op :: y :: rest => by
    rw [foldLeft_cons_cons_cons]
    split
    · exact foldLeft_ne_nil _ rest
    · simp
termination_by _ s => s.length

/-! ## Folding from the right -/

theorem foldRight_of_none (h : foldRightmost? ops s = none) : foldRight ops s = s := by
  rw [foldRight]
  split
  · rfl
  · rename_i t ht; rw [h] at ht; cases ht

theorem foldRight_of_some (h : foldRightmost? ops s = some t) : foldRight ops s = foldRight ops t := by
  rw [foldRight]
  split
  · rename_i hn; rw [h] at hn; cases hn
  · rename_i u hu; rw [h] at hu; cases hu; rfl

@[simp] theorem foldRight_nil : foldRight ops [] = [] := foldRight_of_none rfl

/-- A node before a statement that is folded already. -/
def joinRight (ops : Kind → Bool) (x : Node) : Statement → Statement
  | op :: y :: rest => if canFold ops x op y then operation x op y :: rest else x :: op :: y :: rest
  | s => x :: s

theorem foldRightmost?_cons_of_some (h : foldRightmost? ops s = some t) :
    foldRightmost? ops (x :: s) = some (x :: t) := by
  match s, h with
  | op :: y :: rest, h => rw [foldRightmost?, h]
  | [_], h => cases h
  | [], h => cases h

theorem foldRightmost?_tail (h : foldRightmost? ops (x :: s) = none) : foldRightmost? ops s = none := by
  cases hs : foldRightmost? ops s with
  | none => rfl
  | some t => rw [foldRightmost?_cons_of_some hs] at h; cases h

/-- Only whether the first node is an operand decides whether a fold can start at it. -/
theorem foldRightmost?_congr (hxy : x.resolved = y.resolved) (h : foldRightmost? ops (x :: s) = none) :
    foldRightmost? ops (y :: s) = none := by
  match s, h with
  | op :: z :: rest, h =>
    have htail := foldRightmost?_tail h
    rw [foldRightmost?, htail] at h ⊢
    simpa [canFold, hxy] using h
  | [_], _ => rfl
  | [], _ => rfl

/-- Folding from the right is one pass: a node is joined to the folded statement after it. -/
theorem foldRight_cons (x : Node) (s : Statement) :
    foldRight ops (x :: s) = joinRight ops x (foldRight ops s) := by
  cases hs : foldRightmost? ops s with
  | some t =>
    have hlen := foldRightmost?_length hs
    rw [foldRight_of_some (foldRightmost?_cons_of_some hs), foldRight_of_some hs, foldRight_cons]
  | none =>
    rw [foldRight_of_none hs]
    match s, hs with
    | op :: y :: rest, hs =>
      rw [joinRight]
      split
      · rename_i hc
        have hone : foldRightmost? ops (x :: op :: y :: rest) = some (operation x op y :: rest) := by
          rw [foldRightmost?, hs, if_pos hc]
        -- what follows the new operand followed the operand `y`, and did not fold there
        have hdone : foldRightmost? ops (operation x op y :: rest) = none :=
          foldRightmost?_congr (canFold_iff.1 hc).2.2.2 (foldRightmost?_tail hs)
        rw [foldRight_of_some hone, foldRight_of_none hdone]
      · rename_i hc
        exact foldRight_of_none (by rw [foldRightmost?, hs, if_neg hc])
    | [_], _ => exact foldRight_of_none rfl
    | [], _ => exact foldRight_of_none rfl
termination_by s.length

/-- A node joins the operator and the operand after it, or stays by itself. -/
theorem joinRight_cases (ops : Kind → Bool) (x : Node) (s : Statement) :
    (∃ op y rest, s = op :: y :: rest ∧ canFold ops x op y = true ∧
      joinRight ops x s = operation x op y :: rest) ∨ joinRight ops x s = x :: s := by
  match s with
  | op :: y :: rest =>
    by_cases hc : canFold ops x op y = true
    · exact .inl ⟨op, y, rest, rfl, hc, by rw [joinRight, if_pos hc]⟩
    · exact .inr (by rw [joinRight, if_neg hc])
  | [_] => exact .inr rfl
  | [] => exact .inr rfl

theorem joinRight_of_loose (hx : x.resolved = false) (s : Statement) : joinRight ops x s = x :: s := by
  rcases joinRight_cases ops x s with ⟨op, y, rest, -, hc, -⟩ | h
  · rw [(canFold_iff.1 hc).2.2.1] at hx; cases hx
  · exact h

theorem foldRight_ne_nil (x : Node) (s : Statement) : foldRight ops (x :: s) ≠ [] := by
  rw [foldRight_cons]
  rcases joinRight_cases ops x (foldRight ops s) with ⟨op, y, rest, -, -, h⟩ | h
  · rw [h]; simp
  · rw [h]; simp

end Kettle.Statement
