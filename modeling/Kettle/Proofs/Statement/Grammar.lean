/-
The grammar of statements. Each sort of phrases is a relation between the nodes of a statement and the
tree they stand for; a sort that is made of another one takes it as an argument. From the loosest to
the tightest:

    R -> `return` R | `return` | A
    A -> C assignop A | C
    C -> L (`,` L)*
    L, K, M, T: operators between operands, grouped to the left, of `&& ||`, of comparisons, of `+ -`
      and of `* / %`
    U -> (`!` | `-`) U | primary

A primary is a leaf, a block, or something that can be called, with its calls. Nothing here refers to
how statements are reduced.
-/
import Kettle.Statement.Operand
import Mathlib.Tactic.Common

namespace Kettle

namespace Node

theorem isLoose_iff {n : Node} {k : Kind} : n.isLoose k = true ↔ n.resolved = false ∧ n.kind = k := by
  simp [isLoose]

theorem isResolved_iff {n : Node} {k : Kind} :
    n.isResolved k = true ↔ n.resolved = true ∧ n.kind = k := by
  simp [isResolved]

/-- A tree that is done: every node of it is resolved, and no compound assignment is left in it. -/
def Finished (n : Node) : Prop := ∀ m ∈ n.preorder, m.resolved = true ∧ m.kind.compound? = none

/-- What a statement is made of before it is reduced: tokens that wait for operands, leaves, and
bracket groups around finished trees. -/
inductive Delivered : Node → Prop where
  | token {n : Node} (hn : n.resolved = false) : Delivered n
  | leaf {n : Node} (hn : n.resolved = true) (hk : isOperand n.kind = true) (hc : n.children = []) :
      Delivered n
  | group {n : Node} (hn : n.resolved = true) (hk : n.kind = .lpar ∨ n.kind = .lbrace)
      (hc : ∀ c ∈ n.children, c.Finished) : Delivered n

theorem Delivered.ofToken (t : Token) : (Node.ofToken t).Delivered := by
  cases h : isOperand (kindOf t) with
  | true => exact .leaf h h rfl
  | false => exact .token h

/-- A parenthesis that stands for the one expression in it, which is no comma list. -/
def Encloses (n only : Node) : Prop :=
  n.isResolved .lpar = true ∧ n.children = [only] ∧ only.kind ≠ .comma

end Node

namespace Statement

/-- A sort of phrases: the statements that belong to it, each with the tree it stands for. -/
abbrev Phrases := Statement → Node → Prop

/-! ## Operands -/

/-- What can be called: a name, a parenthesis, or a function literal with or without a body. -/
inductive Callee : Phrases where
  | name {n : Node} (hn : n.isResolved .ident = true) : Callee [n] n
  | group {n : Node} (hn : n.isResolved .lpar = true) : Callee [n] n
  | function {fn params : Node} (hf : fn.isLoose .function = true) (hp : params.isResolved .lpar = true) :
      Callee [fn, params] (fn.into .function fn.text [params])
  | functionBody {fn params body : Node} (hf : fn.isLoose .function = true)
      (hp : params.isResolved .lpar = true) (hb : body.isResolved .lbrace = true) :
      Callee [fn, params, body] (fn.into .function fn.text [params, body])

/-- A callee and the argument groups after it, nested to the left. -/
inductive Calls : Phrases where
  | callee {s : Statement} {t : Node} (h : Callee s t) : Calls s t
  | call {s : Statement} {f args : Node} (h : Calls s f) (ha : args.isResolved .lpar = true) :
      Calls (s ++ [args]) (f.into .apply "call" [f, args])

/-- The kinds of operands that are no callees. -/
def leafKinds : List Kind :=
  [.number, .doubleQuoted, .singleQuoted, .backquoted, .brk, .cont, .lbrace]

/-- An operand without a sign. -/
inductive Primary : Phrases where
  | leaf {n : Node} (hn : n.resolved = true) (hk : n.kind ∈ leafKinds) : Primary [n] n
  | callable {s : Statement} {t : Node} (h : Calls s t) (ht : ∀ only, ¬ t.Encloses only) : Primary s t
  | enclosed {n only : Node} (h : n.Encloses only) : Primary [n] only

/-- An operand and the signs before it. -/
inductive Signed (P : Phrases) : Phrases where
  | operand {s : Statement} {t : Node} (h : P s t) : Signed P s t
  | not {op : Node} {s : Statement} {t : Node} (hop : op.isLoose .not = true) (h : Signed P s t) :
      Signed P (op :: s) (op.into .not op.text [t])
  | minus {op : Node} {s : Statement} {t : Node} (hop : op.isLoose .minus = true) (h : Signed P s t) :
      Signed P (op :: s) (op.into .neg op.text [t])

/-! ## Operators between operands -/

/-- Phrases with operators of some kinds between them, grouped to the left. -/
inductive Chain (ops : List Kind) (P : Phrases) : Phrases where
  | single {s : Statement} {t : Node} (h : P s t) : Chain ops P s t
  | more {s s' : Statement} {x op y : Node} (hs : Chain ops P s x) (hop : op.resolved = false)
      (hk : op.kind ∈ ops) (hy : P s' y) : Chain ops P (s ++ op :: s') (op.into op.kind op.text [x, y])

/-- Two or more phrases with commas between them: the first comma, and the trees of the phrases. -/
inductive Elements (P : Phrases) : Statement → Node → List Node → Prop where
  | two {s s' : Statement} {x c y : Node} (hs : P s x) (hc : c.isLoose .comma = true) (hy : P s' y) :
      Elements P (s ++ c :: s') c [x, y]
  | more {s s' : Statement} {first c y : Node} {xs : List Node} (hs : Elements P s first xs)
      (hc : c.isLoose .comma = true) (hy : P s' y) : Elements P (s ++ c :: s') first (xs ++ [y])

/-- A phrase, or a flat comma list of phrases at its first comma. -/
inductive Listing (P : Phrases) : Phrases where
  | single {s : Statement} {t : Node} (h : P s t) : Listing P s t
  | many {s : Statement} {c : Node} {xs : List Node} (h : Elements P s c xs) :
      Listing P s (c.into .comma c.text xs)

/-- The operators that assign. -/
def assignKinds : List Kind := [.assign, .plusEq, .minusEq, .starEq, .slashEq, .modEq]

/-- Phrases with assignment operators between them, grouped to the right; `form` makes the tree of a
target, an operator and what is assigned. -/
inductive Assigning (form : Node → Node → Node → Node) (P : Phrases) : Phrases where
  | single {s : Statement} {t : Node} (h : P s t) : Assigning form P s t
  | more {s s' : Statement} {x op y : Node} (hs : P s x) (hop : op.resolved = false)
      (hk : op.kind ∈ assignKinds) (hy : Assigning form P s' y) :
      Assigning form P (s ++ op :: s') (form x op y)

/-- The tree of an assignment, with a compound one `x op= y` written out as `x = (x op y)`. -/
def assigned (x op y : Node) : Node :=
  match op.kind.compound? with
  | some k => op.into .assign "=" [x, op.into k op.text.dropLast [x, y]]
  | none => op.into .assign op.text [x, y]

/-- Phrases with any number of `return` before them, or `return` alone. -/
inductive Returning (P : Phrases) : Phrases where
  | plain {s : Statement} {t : Node} (h : P s t) : Returning P s t
  | bare {n : Node} (hn : n.isLoose .ret = true) : Returning P [n] (n.into .ret n.text [])
  | operand {n : Node} {s : Statement} {t : Node} (hn : n.isLoose .ret = true) (h : Returning P s t) :
      Returning P (n :: s) (n.into .ret n.text [t])

/-! ## The sorts of the grammar -/

/-- The four tiers of operators that compute a value, over any operands. -/
def Tiers (P : Phrases) : Phrases :=
  Chain [.and, .or] <| Chain [.lt, .gt, .lte, .gte, .eq, .neq] <| Chain [.plus, .minus] <|
    Chain [.star, .slash, .mod] P

/-- Whole statements over any operands, whose assignments have the given form. -/
def Sentence (form : Node → Node → Node → Node) (P : Phrases) : Phrases :=
  Returning <| Assigning form <| Listing <| Tiers P

/-- The statements of the language, each with its tree. -/
def Derives : Phrases := Sentence assigned (Signed Primary)

end Statement

end Kettle
