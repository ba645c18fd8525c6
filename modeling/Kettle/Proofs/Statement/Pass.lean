/-
Folding again and again, and folding in one pass. A fold of operators looks for a place from the end of the statement
that it starts at, and looks from there again after each operation it makes. A pass looks at every node once, and keeps
those it has seen on a stack: a node that comes to an operator of the set with an operand behind it is folded at once.
Main statement: for any statement, be it one that operators and operands do not alternate in, the two come to the same,
and nothing is left that could be folded.
-/
import Kettle.Proofs.Statement.Infix
import Mathlib.Data.List.Induction
import Mathlib.Logic.Relation

namespace Kettle.Statement

open Relation (ReflTransGen)

variable {ops : Kind → Bool} {x op y : Node} {s t before : Statement}

/-! ## Nothing left to fold -/

/-- No operator of the set stands between two operands. -/
def Folded (ops : Kind → Bool) (s : Statement) : Prop := ∀ x op y, [x, op, y] <:+: s → canFold ops x op y = false

theorem Folded.of_infix (h : Folded ops s) (ht : t <:+: s) : Folded ops t :=
  fun x op y hxy => h x op y (hxy.trans ht)

theorem folded_of_short (h : ∀ x op y rest, s = x :: op :: y :: rest → False) : Folded ops s := by
  rintro x op y ⟨before, after, rfl⟩
  rcases before with _ | ⟨a, _ | ⟨b, _ | ⟨c, before⟩⟩⟩ <;> exact (h _ _ _ _ rfl).elim

theorem folded_cons {rest : Statement} :
    Folded ops (x :: op :: y :: rest) ↔ canFold ops x op y = false ∧ Folded ops (op :: y :: rest) := by
  constructor
  · exact fun h => ⟨h x op y ⟨[], rest, rfl⟩, h.of_infix (List.suffix_cons x _).isInfix⟩
  · rintro ⟨hc, hrest⟩ a b c habc
    rcases List.infix_cons_iff.1 habc with hprefix | hinfix
    · obtain ⟨more, hmore⟩ := hprefix
      simp only [List.cons_append, List.nil_append, List.cons.injEq] at hmore
      obtain ⟨rfl, rfl, rfl, -⟩ := hmore
      exact hc
    · exact hrest a b c hinfix

theorem folded_concat :
    Folded ops (s ++ [y]) ↔ Folded ops s ∧ ∀ x op, [x, op] <:+ s → canFold ops x op y = false := by
  constructor
  · refine fun h => ⟨h.of_infix (List.prefix_append s [y]).isInfix, ?_⟩
    rintro x op ⟨more, rfl⟩
    exact h x op y ⟨more, [], by simp⟩
  · rintro ⟨hs, hlast⟩ a b c habc
    rcases List.infix_concat_iff.1 habc with hsuffix | hinfix
    · obtain ⟨more, hmore⟩ := hsuffix
      have hsplit : (more ++ [a, b]) ++ [c] = s ++ [y] := by simpa using hmore
      obtain ⟨rfl, hc⟩ := List.append_inj' hsplit rfl
      obtain rfl := List.singleton_inj.1 hc
      exact hlast a b (List.suffix_append more [a, b])
    · exact hs a b c hinfix

/-- A look from the left finds nothing just where nothing can be folded. -/
theorem foldLeftmost?_eq_none_iff : foldLeftmost? ops s = none ↔ Folded ops s := by
  induction s using foldLeftmost?_induct ops with
  | here x op y rest hc => simp [folded_cons, hc]
  | later x op y rest hc ih => simp [folded_cons, hc, ih]
  | short s hs => exact iff_of_true rfl (folded_of_short hs)

/-- A look from the right finds nothing just where nothing can be folded. -/
theorem foldRightmost?_eq_none_iff : foldRightmost? ops s = none ↔ Folded ops s := by
  induction s using foldRightmost?_induct ops with
  | later x op y rest t ht ih =>
    have hrest : ¬ Folded ops (op :: y :: rest) := by simp [← ih, ht]
    simp [folded_cons, hrest]
  | here x op y rest hnone hc ih => simp [folded_cons, hc]
  | nowhere x op y rest hnone hc ih => simp [folded_cons, hc, ← ih, hnone]
  | short s hs => exact iff_of_true rfl (folded_of_short hs)

/-! ## Looking again and again -/

/-- Looking again and again leads from one statement to another one, in which nothing more is found. -/
def Rescans (find : Statement → Option Statement) (s t : Statement) : Prop :=
  ReflTransGen (fun s t => find s = some t) s t ∧ find t = none

/-- A fold comes to its end, because every operation leaves two nodes less. -/
theorem rescans_of_loop {find : Statement → Option Statement} {loop : Statement → Statement}
    (hnone : ∀ {s}, find s = none → loop s = s) (hsome : ∀ {s t}, find s = some t → loop s = loop t)
    (hlength : ∀ {s t}, find s = some t → t.length + 2 = s.length) (s : Statement) : Rescans find s (loop s) := by
  cases hs : find s with
  | none =>
    rw [hnone hs]
    exact ⟨.refl, hs⟩
  | some t =>
    have hshorter := hlength hs
    obtain ⟨hrun, hend⟩ := rescans_of_loop hnone hsome hlength t
    rw [hsome hs]
    exact ⟨.head hs hrun, hend⟩
termination_by s.length

theorem foldLeft_rescans (ops : Kind → Bool) (s : Statement) : Rescans (foldLeftmost? ops) s (foldLeft ops s) :=
  rescans_of_loop foldLeft_of_none foldLeft_of_some foldLeftmost?_length s

theorem foldRight_rescans (ops : Kind → Bool) (s : Statement) : Rescans (foldRightmost? ops) s (foldRight ops s) :=
  rescans_of_loop foldRight_of_none foldRight_of_some foldRightmost?_length s

theorem foldLeft_folded (ops : Kind → Bool) (s : Statement) : Folded ops (foldLeft ops s) :=
  foldLeftmost?_eq_none_iff.1 (foldLeft_rescans ops s).2

theorem foldRight_folded (ops : Kind → Bool) (s : Statement) : Folded ops (foldRight ops s) :=
  foldRightmost?_eq_none_iff.1 (foldRight_rescans ops s).2

/-! ## One pass -/

/-- A node after a stack of nodes, of which the last one comes first. -/
def joinLeft (ops : Kind → Bool) : Statement → Node → Statement
  | op :: x :: below, y => if canFold ops x op y then operation x op y :: below else y :: op :: x :: below
  | stack, y => y :: stack

/-- One pass over a statement from the left. -/
def passLeft (ops : Kind → Bool) (s : Statement) : Statement := (s.foldl (joinLeft ops) []).reverse

/-- One pass over a statement from the right. The stack is the statement behind the node that comes to it, so that it is
never turned around. -/
def passRight (ops : Kind → Bool) (s : Statement) : Statement := s.foldr (joinRight ops) []

/-- The first place that can be folded is the one that a look from the left finds. -/
theorem foldLeftmost?_of_folded (h : Folded ops (before ++ [x, op])) (hc : canFold ops x op y = true)
    (after : Statement) :
    foldLeftmost? ops (before ++ x :: op :: y :: after) = some (before ++ operation x op y :: after) := by
  induction before with
  | nil => simp [foldLeftmost?, hc]
  | cons a before ih =>
    -- the two nodes after `a` stand before the place, or are the first two of it
    obtain ⟨b, c, more, hmore⟩ : ∃ b c more, before ++ [x, op] = b :: c :: more := by
      rcases before with _ | ⟨b, _ | ⟨c, before⟩⟩
      · exact ⟨x, op, [], rfl⟩
      · exact ⟨b, x, [op], rfl⟩
      · exact ⟨b, c, before ++ [x, op], rfl⟩
    have hlist : before ++ x :: op :: y :: after = b :: c :: (more ++ y :: after) := by
      rw [← List.cons_append, ← List.cons_append, ← hmore]
      simp
    rw [List.cons_append, hmore] at h
    obtain ⟨habc, hbefore⟩ := folded_cons.1 h
    rw [← hmore] at hbefore
    rw [List.cons_append, hlist, foldLeftmost?, if_neg (by simp [habc]), ← hlist, ih hbefore]
    rfl

/-- One step of the pass: where nothing of the nodes so far can be folded, one more node makes one operation at most. -/
theorem foldLeft_concat {stack : Statement} (h : Folded ops stack.reverse) (y : Node) :
    foldLeft ops (stack.reverse ++ [y]) = (joinLeft ops stack y).reverse := by
  match stack with
  | [] => simp [joinLeft]
  | [x] => simp [joinLeft]
  | op :: x :: below =>
    have hstack : (op :: x :: below).reverse = below.reverse ++ [x, op] := by simp
    rw [hstack] at h ⊢
    rw [joinLeft]
    split
    · rename_i hc
      have hfind := foldLeftmost?_of_folded h hc []
      -- the operation stands where the operand `x` stood, with which nothing before it could be folded
      have hdone : Folded ops (below.reverse ++ [operation x op y]) := by
        refine folded_concat.2 ⟨h.of_infix (List.prefix_append _ _).isInfix, fun a b hab => ?_⟩
        have hx : Folded ops (below.reverse ++ [x]) := h.of_infix ⟨[], [op], by simp⟩
        have hfree := (folded_concat.1 hx).2 a b hab
        have hresolved := (canFold_iff.1 hc).2.2.1
        simpa [canFold, hresolved] using hfree
      rw [List.append_assoc, List.cons_append, List.cons_append, List.nil_append, foldLeft_of_some hfind,
        foldLeft_of_none (foldLeftmost?_eq_none_iff.2 hdone), List.reverse_cons]
    · rename_i hc
      have hdone : Folded ops (below.reverse ++ [x, op] ++ [y]) := by
        refine folded_concat.2 ⟨h, fun a b hab => ?_⟩
        obtain ⟨more, hmore⟩ := hab
        obtain ⟨-, hpair⟩ := List.append_inj' hmore rfl
        simp only [List.cons.injEq, and_true] at hpair
        obtain ⟨rfl, rfl⟩ := hpair
        simpa using hc
      rw [foldLeft_of_none (foldLeftmost?_eq_none_iff.2 hdone)]
      simp

/-- Folding from the left is one pass from the left. The induction is on the nodes that the pass has seen. -/
theorem foldLeft_eq_passLeft (ops : Kind → Bool) (s : Statement) : foldLeft ops s = passLeft ops s := by
  induction s using List.reverseRecOn with
  | nil => simp [passLeft]
  | append_singleton s y ih =>
    have hfolded : Folded ops (passLeft ops s) := ih ▸ foldLeft_folded ops s
    rw [foldLeft_append, ih, passLeft, foldLeft_concat hfolded, passLeft, List.foldl_append]
    rfl

theorem foldRight_eq_passRight (ops : Kind → Bool) (s : Statement) : foldRight ops s = passRight ops s := by
  induction s with
  | nil => simp [passRight]
  | cons x s ih => rw [foldRight_cons, ih, passRight, passRight, List.foldr_cons]

/-- Looking again and again from either end of a statement, whatever nodes it is made of and whatever operators are in
the set, comes to an end, and to what one pass from that end comes to; and nothing is left there that could be folded. -/
theorem rescanning_is_one_pass (ops : Kind → Bool) (s : Statement) :
    (Rescans (foldLeftmost? ops) s (foldLeft ops s) ∧ foldLeft ops s = passLeft ops s ∧ Folded ops (foldLeft ops s)) ∧
      Rescans (foldRightmost? ops) s (foldRight ops s) ∧ foldRight ops s = passRight ops s ∧
        Folded ops (foldRight ops s) :=
  ⟨⟨foldLeft_rescans ops s, foldLeft_eq_passLeft ops s, foldLeft_folded ops s⟩,
    foldRight_rescans ops s, foldRight_eq_passRight ops s, foldRight_folded ops s⟩

end Kettle.Statement
