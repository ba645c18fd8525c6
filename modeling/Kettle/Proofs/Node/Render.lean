/-
Trees written as sources. A tree is written as words with blanks between them: brackets around what is
in them, a call as its callee and its arguments, and an operator with its operands, which stand in
parentheses unless they are single words, brackets, calls or functions. Behind `return` and around an
assignment a comma list stands bare. Where an operator takes a comma list, as compound assignments
make it, the parentheses of the list are a group of their own when they are read back; `regroup` puts
that group into the tree.
-/
import Kettle.Node
import Mathlib.Tactic.Common

namespace Kettle

/-- Lists one after the other with a mark at each joint. -/
def Text.spread {α : Type} (mark : α) : List (List α) → List α
  | [] => []
  | [ws] => ws
  | ws :: ws' :: rest => ws ++ mark :: spread mark (ws' :: rest)

namespace Node

/-! ## Words -/

/-- How nodes of a kind are written: as their text, as their children in brackets, as their children in
a row, with their text in front or not, or as their text before or between their operands. -/
inductive Writing where
  | leaf
  | brackets (opening closing : Text)
  | row
  | headed
  | before
  | between
  deriving DecidableEq

/-- How nodes of a kind are written. -/
def writing : Kind → Writing
  | .ident | .number | .doubleQuoted | .singleQuoted | .backquoted | .brk | .cont => .leaf
  | .lpar => .brackets "(" ")"
  | .lbrace => .brackets "\x7b" "\x7d"
  | .apply => .row
  | .function => .headed
  | .not | .neg | .ret => .before
  | _ => .between

/-- Whether an operand needs no parentheses. -/
def standsAlone (k : Kind) : Bool :=
  match writing k with
  | .before | .between => false
  | _ => true

/-- Whether an operand of the kind `inner` is written in parentheses next to an operator of the kind
`outer`. -/
def isWrapped (outer inner : Kind) : Bool :=
  !standsAlone inner && !(inner = .comma && (outer = .assign || outer = .ret))

/-- The words of an operand, from its own words. -/
def wrapped (outer inner : Kind) (words : List Text) : List Text :=
  if isWrapped outer inner then ("(" : Text) :: (words ++ [(")" : Text)]) else words

mutual

/-- The words of a tree. -/
def words : Node → List Text
  | ⟨kind, text, children, _, _⟩ =>
    match writing kind with
    | .leaf => [text]
    | .brackets opening closing => opening :: (Text.spread (";" : Text) (wordsAll children) ++ [closing])
    | .row => (wordsAll children).flatten
    | .headed => text :: (wordsAll children).flatten
    | .before => text :: (operandWords kind children).flatten
    | .between => Text.spread text (operandWords kind children)

/-- The words of several trees. -/
def wordsAll : List Node → List (List Text)
  | [] => []
  | n :: ns => words n :: wordsAll ns

/-- The words of the operands of an operator. -/
def operandWords (outer : Kind) : List Node → List (List Text)
  | [] => []
  | n :: ns => wrapped outer n.kind (words n) :: operandWords outer ns

end

/-- The words of the statements of a source, with semicolons between them. -/
def sourceWords (root : Node) : List Text := Text.spread (";" : Text) (wordsAll root.children)

/-- A source that is written from the tree of one. -/
def render (root : Node) : Text := Text.join " " root.sourceWords

/-! ## Brackets -/

/-- What a word adds to the number of open brackets. -/
def weight (word : Text) : Int :=
  if word = "(" ∨ word = "\x7b" then 1 else if word = ")" ∨ word = "\x7d" then -1 else 0

/-- How many brackets are open at once at most. -/
def nesting : List Text → Int
  | [] => 0
  | w :: ws => max 0 (weight w + nesting ws)

/-! ## Comma lists as operands -/

/-- Whether a comma list is written in parentheses next to an operator of this kind. -/
def wrapsLists (outer : Kind) : Bool :=
  (writing outer = .before || writing outer = .between) && isWrapped outer .comma

/-- The parenthesis around a tree. -/
def enclose (n : Node) : Node := ⟨.lpar, "(", [n], true, n.pos⟩

/-- Puts a comma list that is written in parentheses into a group. -/
def encloseList (outer : Kind) (n : Node) : Node :=
  if wrapsLists outer && n.kind = .comma then enclose n else n

mutual

/-- The tree with every comma list that an operator takes as an operand in a group. -/
def regroup : Node → Node
  | ⟨kind, text, children, resolved, pos⟩ => ⟨kind, text, regroupAll kind children, resolved, pos⟩

/-- The children of a node with the comma lists among them in groups, where they are operands. -/
def regroupAll (outer : Kind) : List Node → List Node
  | [] => []
  | n :: ns => encloseList outer (regroup n) :: regroupAll outer ns

end

/-- No operator of the tree takes a comma list as an operand. -/
def NoListOperand (n : Node) : Prop :=
  ∀ m ∈ n.preorder, wrapsLists m.kind = true → ∀ c ∈ m.children, c.kind ≠ .comma

instance (n : Node) : Decidable n.NoListOperand :=
  inferInstanceAs (Decidable (∀ m ∈ n.preorder, wrapsLists m.kind = true → ∀ c ∈ m.children, c.kind ≠ .comma))

/-! ## Writing is the same for both -/

theorem wordsAll_eq (ns : List Node) : wordsAll ns = ns.map words := by
  induction ns with
  | nil => rfl
  | cons n ns ih => rw [wordsAll, ih]; rfl

theorem operandWords_eq (outer : Kind) (ns : List Node) :
    operandWords outer ns = ns.map fun n => wrapped outer n.kind (words n) := by
  induction ns with
  | nil => rfl
  | cons n ns ih => rw [operandWords, ih]; rfl

theorem words_eq (n : Node) : n.words = match writing n.kind with
    | .leaf => [n.text]
    | .brackets opening closing => opening :: (Text.spread (";" : Text) (n.children.map words) ++ [closing])
    | .row => (n.children.map words).flatten
    | .headed => n.text :: (n.children.map words).flatten
    | .before => n.text :: (n.children.map fun c => wrapped n.kind c.kind c.words).flatten
    | .between => Text.spread n.text (n.children.map fun c => wrapped n.kind c.kind c.words) := by
  cases n
  rw [words, wordsAll_eq, operandWords_eq]

theorem regroupAll_eq (outer : Kind) (ns : List Node) :
    regroupAll outer ns = ns.map fun n => encloseList outer (regroup n) := by
  induction ns with
  | nil => rfl
  | cons n ns ih => rw [regroupAll, ih]; rfl

@[simp] theorem regroup_kind (n : Node) : n.regroup.kind = n.kind := by cases n; rfl

theorem words_enclose (n : Node) : n.enclose.words = ("(" : Text) :: (n.words ++ [(")" : Text)]) := by
  simp [enclose, words, writing, wordsAll, Text.spread]

/-- A group around a comma list is written as the list is. -/
theorem wrapped_encloseList (outer : Kind) (n : Node) :
    wrapped outer (encloseList outer n).kind (encloseList outer n).words = wrapped outer n.kind n.words := by
  unfold encloseList
  split
  · rename_i h
    obtain ⟨hlists, hkind⟩ := Bool.and_eq_true_iff.1 h
    have hwrap : isWrapped outer .comma = true := (Bool.and_eq_true_iff.1 hlists).2
    have hlpar : isWrapped outer .lpar = false := rfl
    rw [words_enclose, of_decide_eq_true hkind]
    simp [wrapped, enclose, hwrap, hlpar]
  · rfl

theorem encloseList_eq_self {outer : Kind} (h : wrapsLists outer = false) (n : Node) : encloseList outer n = n := by
  simp [encloseList, h]

mutual

/-- Putting comma lists into groups does not change the words. -/
theorem words_regroup : ∀ n : Node, n.regroup.words = n.words
  | ⟨kind, text, children, resolved, pos⟩ => by
    have hparts : wrapsLists kind = false → wordsAll (regroupAll kind children) = wordsAll children := by
      intro h
      rw [← wordsAll_regroup children, regroupAll_eq]
      simp [encloseList_eq_self h]
    rw [regroup, words, words, operandWords_regroup kind children]
    split
    · rfl
    · rename_i hk; rw [hparts (by simp [wrapsLists, hk])]
    · rename_i hk; rw [hparts (by simp [wrapsLists, hk])]
    · rename_i hk; rw [hparts (by simp [wrapsLists, hk])]
    · rfl
    · rfl

theorem wordsAll_regroup : ∀ ns : List Node, wordsAll (ns.map regroup) = wordsAll ns
  | [] => rfl
  | n :: ns => by rw [List.map_cons, wordsAll, wordsAll, words_regroup n, wordsAll_regroup ns]

theorem operandWords_regroup (outer : Kind) : ∀ ns : List Node,
    operandWords outer (regroupAll outer ns) = operandWords outer ns
  | [] => rfl
  | n :: ns => by
    rw [regroupAll, operandWords, operandWords, wrapped_encloseList, regroup_kind, words_regroup n,
      operandWords_regroup outer ns]

end

/-! ## Trees without comma lists as operands -/

mutual

/-- Where no operator takes a comma list there is nothing to put into groups. -/
theorem regroup_eq_self : ∀ n : Node, n.NoListOperand → n.regroup = n
  | ⟨kind, text, children, resolved, pos⟩, h => by
    have hroot := h ⟨kind, text, children, resolved, pos⟩ (by simp [preorder])
    have hchildren : regroupAll kind children = children :=
      regroupAll_eq_self kind children hroot fun m hm => h m (by simp [preorder, hm])
    rw [regroup, hchildren]

theorem regroupAll_eq_self (outer : Kind) : ∀ ns : List Node,
    (wrapsLists outer = true → ∀ c ∈ ns, c.kind ≠ .comma) →
    (∀ m ∈ preorderAll ns, wrapsLists m.kind = true → ∀ c ∈ m.children, c.kind ≠ .comma) → regroupAll outer ns = ns
  | [], _, _ => rfl
  | n :: ns, houter, h => by
    have hn : n.regroup = n := regroup_eq_self n fun m hm => h m (by simp [preorderAll, hm])
    have hself : encloseList outer n = n := by
      unfold encloseList
      split
      · rename_i hlist
        obtain ⟨hwraps, hcomma⟩ := Bool.and_eq_true_iff.1 hlist
        exact absurd (of_decide_eq_true hcomma) (houter hwraps n (by simp))
      · rfl
    have hns : regroupAll outer ns = ns :=
      regroupAll_eq_self outer ns (fun hw c hc => houter hw c (by simp [hc]))
        fun m hm => h m (by simp [preorderAll, hm])
    rw [regroupAll, hn, hself, hns]

end

end Node

end Kettle
