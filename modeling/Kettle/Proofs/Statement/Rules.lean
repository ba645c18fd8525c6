/-
Induction on the grammar. A relation between statements and trees that is closed under the rules of the
grammar holds of every statement that the grammar derives and the tree that it gives it. The rules are
taken together where they make nodes of one form, and a comma list is made of trees that are none.
-/
import Kettle.Proofs.Statement.Operand

namespace Kettle

/-- The operators between two operands that compute a value. -/
def Node.operatorKinds : List Kind :=
  [.and, .or, .lt, .gt, .lte, .gte, .eq, .neq, .plus, .minus, .star, .slash, .mod]

namespace Statement

/-- A relation is closed under the rules of the grammar, for statements of nodes of the sort `I`. -/
structure RuleClosed (I : Node → Prop) (R : Phrases) : Prop where
  leaf : ∀ {n : Node}, I n → n.resolved = true → n.kind ∈ leafKinds → R [n] n
  callee : ∀ {s : Statement} {t : Node}, (∀ m ∈ s, I m) → Callee s t → R s t
  call : ∀ {s : Statement} {f args : Node}, R s f → isCallee f = true → I args → args.isResolved .lpar = true →
    R (s ++ [args]) (f.into .apply "call" [f, args])
  enclosed : ∀ {n only : Node}, I n → n.Encloses only → R [n] only
  sign : ∀ {op t : Node} {kind : Kind} {s : Statement}, I op → op.resolved = false → unary? op.kind = some kind →
    R s t → R (op :: s) (op.into kind op.text [t])
  operation : ∀ {s s' : Statement} {x op y : Node}, R s x → I op → op.resolved = false →
    op.kind ∈ Node.operatorKinds → R s' y → R (s ++ op :: s') (op.into op.kind op.text [x, y])
  commaList : ∀ {s : Statement} {c : Node} {xs : List Node}, (∀ m ∈ s, I m) →
    Elements (fun s t => R s t ∧ t.kind ≠ .comma) s c xs → R s (c.into .comma c.text xs)
  assign : ∀ {s s' : Statement} {x op y : Node}, R s x → I op → op.resolved = false → op.kind ∈ assignKinds →
    R s' y → R (s ++ op :: s') (assigned x op y)
  bare : ∀ {n : Node}, I n → n.isLoose .ret = true → R [n] (n.into .ret n.text [])
  ret : ∀ {n t : Node} {s : Statement}, I n → n.isLoose .ret = true → R s t → R (n :: s) (n.into .ret n.text [t])

variable {I : Node → Prop} {P R : Phrases} {s : Statement} {t : Node}

/-! ## Sorts without comma lists -/

theorem Calls.isCallee (h : Calls s t) : Statement.isCallee t = true := by
  cases h with
  | callee h => exact h.isCallee
  | call => rfl

/-- The phrases of a sort stand for no comma lists. -/
def ListFree (P : Phrases) : Prop := ∀ s t, P s t → t.kind ≠ .comma

theorem primary_listFree : ListFree Primary := by
  rintro s t h hcomma
  cases h with
  | leaf _ hk =>
    rw [hcomma] at hk
    exact absurd hk (by decide)
  | callable h =>
    have hcallee := h.isCallee
    simp [Statement.isCallee, hcomma] at hcallee
  | enclosed h => exact h.2.2 hcomma

theorem ListFree.signed (hP : ListFree P) : ListFree (Signed P) := by
  intro s t h
  cases h with
  | operand h => exact hP _ _ h
  | not => simp [Node.into]
  | minus => simp [Node.into]

theorem ListFree.chain (hP : ListFree P) {ops : List Kind} (hops : .comma ∉ ops) : ListFree (Chain ops P) := by
  intro s t h
  cases h with
  | single h => exact hP _ _ h
  | more _ _ hk => exact fun hcomma => hops (hcomma ▸ hk)

theorem ListFree.tiers (hP : ListFree P) : ListFree (Tiers P) :=
  (((hP.chain (by decide)).chain (by decide)).chain (by decide)).chain (by decide)

/-! ## From the rules to the grammar -/

/-- The phrases of a sort, made of nodes of the sort `I`, are in a relation to their trees. -/
def Covers (I : Node → Prop) (P R : Phrases) : Prop := ∀ s t, (∀ m ∈ s, I m) → P s t → R s t

theorem Covers.elements (hP : Covers I P R) (hlists : ListFree P) {c : Node} {xs : List Node} (hI : ∀ m ∈ s, I m)
    (h : Elements P s c xs) : Elements (fun s t => R s t ∧ t.kind ≠ .comma) s c xs := by
  have hboth : ∀ {s t}, (∀ m ∈ s, I m) → P s t → R s t ∧ t.kind ≠ .comma :=
    fun hI h => ⟨hP _ _ hI h, hlists _ _ h⟩
  induction h with
  | two hs hc hy => exact .two (hboth (forall_left hI) hs) hc (hboth (forall_right hI) hy)
  | more _ hc hy ih => exact .more (ih (forall_left hI)) hc (hboth (forall_right hI) hy)

namespace RuleClosed

variable (hR : RuleClosed I R)
include hR

theorem calls : Covers I Calls R := by
  intro s t hI h
  induction h with
  | callee h => exact hR.callee hI h
  | @call s f args hf ha ih => exact hR.call (ih fun m hm => hI m (by simp [hm])) hf.isCallee (hI args (by simp)) ha

theorem primary : Covers I Primary R := by
  intro s t hI h
  cases h with
  | leaf hn hk => exact hR.leaf (hI t (by simp)) hn hk
  | callable h => exact hR.calls s t hI h
  | @enclosed n _ h => exact hR.enclosed (hI n (by simp)) h

theorem signed (hP : Covers I P R) : Covers I (Signed P) R := by
  intro s t hI h
  induction h with
  | operand h => exact hP _ _ hI h
  | @not op s t hop _ ih =>
    obtain ⟨hloose, hk⟩ := Node.isLoose_iff.1 hop
    exact hR.sign (hI op (by simp)) hloose (by rw [hk]; rfl) (ih fun m hm => hI m (by simp [hm]))
  | @minus op s t hop _ ih =>
    obtain ⟨hloose, hk⟩ := Node.isLoose_iff.1 hop
    exact hR.sign (hI op (by simp)) hloose (by rw [hk]; rfl) (ih fun m hm => hI m (by simp [hm]))

theorem chain (hP : Covers I P R) {ops : List Kind} (hops : ops ⊆ Node.operatorKinds) : Covers I (Chain ops P) R := by
  intro s t hI h
  induction h with
  | single h => exact hP _ _ hI h
  | @more s s' x op y _ hop hk hy ih =>
    exact hR.operation (ih (forall_left hI)) (hI op (by simp)) hop (hops hk) (hP _ _ (forall_right hI) hy)

theorem tiers (hP : Covers I P R) : Covers I (Tiers P) R :=
  hR.chain (hR.chain (hR.chain (hR.chain hP (by decide)) (by decide)) (by decide)) (by decide)

theorem listing (hP : Covers I P R) (hlists : ListFree P) : Covers I (Listing P) R := by
  intro s t hI h
  cases h with
  | single h => exact hP _ _ hI h
  | many h => exact hR.commaList hI (hP.elements hlists hI h)

theorem assigning (hP : Covers I P R) : Covers I (Assigning assigned P) R := by
  intro s t hI h
  induction h with
  | single h => exact hP _ _ hI h
  | @more s s' x op y hs hop hk _ ih =>
    exact hR.assign (hP _ _ (forall_left hI) hs) (hI op (by simp)) hop hk (ih (forall_right hI))

theorem returning (hP : Covers I P R) : Covers I (Returning P) R := by
  intro s t hI h
  induction h with
  | plain h => exact hP _ _ hI h
  | @bare n hn => exact hR.bare (hI n (by simp)) hn
  | @operand n s t hn _ ih => exact hR.ret (hI n (by simp)) hn (ih fun m hm => hI m (by simp [hm]))

/-- A relation that is closed under the rules holds of all that the grammar derives. -/
theorem derives : Covers I Derives R :=
  hR.returning (hR.assigning (hR.listing (hR.tiers (hR.signed hR.primary)) primary_listFree.signed.tiers))

end RuleClosed

end Statement

end Kettle
