/-
Reducing a statement is parsing it. A statement of tokens, leaves and groups is reduced to a single
node, and passes the check, exactly if the grammar derives it, and the node is the tree that the
grammar gives it; so the grammar gives a statement one tree at most.
-/
import Kettle.Proofs.Statement.Finished
import Kettle.Proofs.Statement.Infix
import Kettle.Proofs.Statement.Operand
import Kettle.Statement.Reduce

namespace Kettle

/-! ## The nodes of a tree by levels -/

namespace Node

theorem mem_mergeLevels {m : Node} : ∀ {a b : List (List Node)},
    m ∈ (mergeLevels a b).flatten ↔ m ∈ a.flatten ∨ m ∈ b.flatten
  | [], b => by simp [mergeLevels]
  | a :: as, [] => by simp [mergeLevels]
  | a :: as, b :: bs => by
    rw [mergeLevels, List.flatten_cons, List.mem_append, List.mem_append, mem_mergeLevels (a := as) (b := bs)]
    simp only [List.flatten_cons, List.mem_append]
    tauto

mutual

theorem mem_levels {m : Node} : ∀ n : Node, m ∈ n.levels.flatten ↔ m ∈ n.preorder
  | ⟨kind, text, children, resolved, pos⟩ => by
    rw [levels, preorder, List.flatten_cons, List.mem_append, mem_levelsAll children]
    simp

theorem mem_levelsAll {m : Node} : ∀ ns : List Node, m ∈ (levelsAll ns).flatten ↔ m ∈ preorderAll ns
  | [] => by simp [levelsAll, preorderAll]
  | n :: ns => by
    rw [levelsAll, mem_mergeLevels, mem_levels n, mem_levelsAll ns, preorderAll, List.mem_append]

end

theorem mem_bottomUp {m n : Node} : m ∈ n.bottomUp ↔ m ∈ n.preorder := by
  rw [← mem_levels n]
  simp [bottomUp]

end Node

namespace Statement

variable {s u : Statement} {n t : Node}

/-! ## The check of a reduced statement -/

theorem earliest?_eq_none_iff {ns : List Node} : earliest? ns = none ↔ ns = [] := by
  cases ns with
  | nil => simp [earliest?]
  | cons n ns =>
    rw [earliest?]
    split <;> simp

/-- The check passes a single node of which nothing is left unresolved. -/
theorem check_eq_ok_iff : check s = .ok n ↔ s = [n] ∧ ∀ m ∈ n.preorder, m.resolved = true := by
  have hloose : ∀ x : Node, earliest? (x.bottomUp.filter fun m => !m.resolved) = none ↔
      ∀ m ∈ x.preorder, m.resolved = true := by
    intro x
    rw [earliest?_eq_none_iff, List.filter_eq_nil_iff]
    simp [Node.mem_bottomUp]
  constructor
  · intro h
    unfold check at h
    split at h
    · cases h
    · split at h
      · cases h
      · rename_i x
        split at h
        · cases h
        · rename_i hx
          cases h
          exact ⟨rfl, (hloose n).1 hx⟩
      · cases h
  · rintro ⟨rfl, h⟩
    have hn : n.resolved = true := h n n.mem_preorder_self
    simp [check, hn, (hloose n).2 h]

/-! ## All reductions in a row -/

/-- The operators of the tiers, as the grammar lists them. -/
theorem product_has_iff (k : Kind) : Tier.product.has k = true ↔ k ∈ [Kind.star, .slash, .mod] := by
  cases k <;> decide

theorem sum_has_iff (k : Kind) : Tier.sum.has k = true ↔ k ∈ [Kind.plus, .minus] := by
  cases k <;> decide

theorem comparison_has_iff (k : Kind) :
    Tier.comparison.has k = true ↔ k ∈ [Kind.lt, .gt, .lte, .gte, .eq, .neq] := by
  cases k <;> decide

theorem logic_has_iff (k : Kind) : Tier.logic.has k = true ↔ k ∈ [Kind.and, .or] := by
  cases k <;> decide

/-- The reductions that turn the operators that compute a value into operands. -/
def tiers (s : Statement) : Statement :=
  foldLeft Tier.logic.has <| foldLeft Tier.comparison.has <| foldLeft Tier.sum.has <|
    foldLeft Tier.product.has s

theorem fold_eq (s : Statement) :
    fold s = attachReturns (foldRight isAssignment (listings (tiers (attachSigns false (operands s))))) := rfl

theorem reduce_eq_expandTrees (s : Statement) : reduce s = expandTrees (fold s) := rfl

theorem reduce_eq (s : Statement) :
    reduce s = expandTrees (attachReturns (foldRight isAssignment (listings
      (tiers (attachSigns false (operands s)))))) := rfl

/-- The kinds of operators that do not compute a value. -/
def outerKinds : List Kind := .comma :: .ret :: assignKinds

theorem tiers_local : Local (fun _ => True) (fun k => k ∈ outerKinds) tiers := by
  have htier : ∀ tier : Tier, tier ≠ .listing →
      Local (fun _ => True) (fun k => k ∈ outerKinds) (foldLeft tier.has) := by
    intro tier ht
    refine (foldLeft_local tier.has).restrict fun k hk => ?_
    revert hk
    cases tier with
    | listing => exact absurd rfl ht
    | product => cases k <;> decide
    | sum => cases k <;> decide
    | comparison => cases k <;> decide
    | logic => cases k <;> decide
  have htrue : ∀ {f : Statement → Statement} s, (∀ m ∈ s, True) → ∀ m ∈ f s, True :=
    fun _ _ _ _ => trivial
  exact (((htier .product (by decide)).comp (htier .sum (by decide)) htrue).comp
    (htier .comparison (by decide)) htrue).comp (htier .logic (by decide)) htrue

/-- The tiers, from the tightest to the loosest, turn chains of chains of operands into operands. -/
theorem tiers_simulates : Simulates (fun _ => True) tiers (Tiers Atom) Atom := by
  have hproduct := (foldLeft_local Tier.product.has).passes
  have hsum := (foldLeft_local Tier.sum.has).passes
  have hcomparison := (foldLeft_local Tier.comparison.has).passes
  have htrue : ∀ {f : Statement → Statement} s, (∀ m ∈ s, True) → ∀ m ∈ f s, True :=
    fun _ _ _ _ => trivial
  -- a tier leaves the operators of the looser tiers, so chains of its chains become chains of operands
  have h₁ := (foldLeft_simulates product_has_iff).chain hproduct [.plus, .minus] (by decide)
    |>.chain hproduct [.lt, .gt, .lte, .gte, .eq, .neq] (by decide)
    |>.chain hproduct [.and, .or] (by decide)
  have h₂ := (foldLeft_simulates sum_has_iff).chain hsum [.lt, .gt, .lte, .gte, .eq, .neq] (by decide)
    |>.chain hsum [.and, .or] (by decide)
  have h₃ := (foldLeft_simulates comparison_has_iff).chain hcomparison [.and, .or] (by decide)
  exact ((h₁.trans h₂ htrue).trans h₃ htrue).trans (foldLeft_simulates logic_has_iff) htrue

theorem mem_tiers (h : n ∈ tiers s) : n ∈ s ∨ n.resolved = true ∧ n.kind ≠ .comma := by
  have hstep : ∀ {tier : Tier} {u : Statement}, tier ≠ .listing → n ∈ foldLeft tier.has u →
      n ∈ u ∨ n.resolved = true ∧ n.kind ≠ .comma := by
    intro tier u ht h
    refine (mem_foldLeft h).imp_right fun ⟨hr, hk⟩ => ⟨hr, ?_⟩
    rintro hc
    rw [hc] at hk
    cases tier <;> first | exact ht rfl | cases hk
  rcases hstep (by decide) h with h | h
  · rcases hstep (by decide) h with h | h
    · rcases hstep (by decide) h with h | h
      · exact hstep (by decide) h
      · exact .inr h
    · exact .inr h
  · exact .inr h

/-- No operand is a comma list before the commas are folded. -/
theorem noListing_tiers (hI : ∀ m ∈ s, m.Delivered) :
    ∀ m ∈ tiers (attachSigns false (operands s)), NoListing m := by
  intro m hm hr hk
  rcases mem_tiers hm with hm | ⟨-, h⟩
  · rcases mem_attachSigns hm with hm | ⟨-, h | h⟩
    · exact operands_kind hI hm hr hk
    · cases hk.symm.trans h
    · cases hk.symm.trans h
  · exact h hk

/-- A step on operands that leaves all operators where they are is a step on whole statements. -/
theorem Simulates.sentence {I : Node → Prop} {f : Statement → Statement} {P Q : Phrases}
    {joint front : Kind → Bool} (h : Simulates I f P Q) (hf : Passes I joint front f)
    (hops : ∀ k ∈ [Kind.star, .slash, .mod, .plus, .minus, .lt, .gt, .lte, .gte, .eq, .neq, .and, .or, .comma],
      joint k = true)
    (hassign : ∀ k ∈ assignKinds, joint k = true) (hret : front .ret = true)
    (form : Node → Node → Node → Node) (hI : ∀ m ∈ s, I m) :
    Sentence form P s t ↔ Sentence form Q (f s) t := by
  have htiers : Simulates I f (Tiers P) (Tiers Q) :=
    (((h.chain hf _ fun k hk => hops k (by revert hk; revert k; decide)).chain hf _
      fun k hk => hops k (by revert hk; revert k; decide)).chain hf _
      fun k hk => hops k (by revert hk; revert k; decide)).chain hf _
      fun k hk => hops k (by revert hk; revert k; decide)
  exact ((htiers.listing hf (hops _ (by simp))).assigning hf hassign form).returning hf hret hI t

/-- Before compound assignments are written out, the reductions leave a single operand exactly of the
statements that the grammar has, and it is their tree. -/
theorem sentence_operation_iff (hI : ∀ m ∈ s, m.Delivered) :
    Sentence operation (Signed Primary) s t ↔
      attachReturns (foldRight isAssignment (listings (tiers (attachSigns false (operands s))))) = [t] ∧
        t.resolved = true := by
  have htrue : ∀ {u : Statement}, ∀ m ∈ u, True := fun _ _ => trivial
  -- each step takes the statements of one sort to those of the next, from primaries up to `return`
  have hoperands := (operands_simulates.signed operands_local.passes rfl rfl).sentence (t := t)
    operands_local.passes (by decide) (by decide) rfl operation hI
  have hsigns := attachSigns_simulates.sentence (s := operands s) (t := t) attachSigns_passes
    (by decide) (by decide) rfl operation htrue
  have htiers := ((tiers_simulates.listing tiers_local.passes rfl).assigning tiers_local.passes
    (by decide) operation).returning tiers_local.passes rfl
    (s := attachSigns false (operands s)) htrue t
  have hlocal := (listings_local.mono fun n (_ : NoListing n) => trivial).passes
  have hlistings := (listings_simulates.assigning hlocal (by decide) operation).returning hlocal rfl
    (noListing_tiers hI) t
  have hassign := foldRight_simulates.returning (foldRight_local isAssignment).passes rfl
    (s := listings (tiers (attachSigns false (operands s)))) htrue t
  exact (((hoperands.trans hsigns).trans htiers).trans hlistings).trans (hassign.trans returning_iff)

theorem expandTrees_eq_singleton : expandTrees u = [n] ↔ ∃ t, u = [t] ∧ expandTree t = n := by
  match u with
  | [] => simp [expandTrees]
  | [t] => simp [expandTrees]
  | t :: t' :: u => simp [expandTrees]

/-- The reductions leave a single operand exactly of the statements that the grammar has. -/
theorem reduce_eq_singleton_iff (hI : ∀ m ∈ s, m.Delivered) :
    reduce s = [n] ∧ n.resolved = true ↔ Derives s n := by
  rw [reduce_eq, expandTrees_eq_singleton, Derives, sentence_expand_iff primary_finished.signed hI]
  constructor
  · rintro ⟨⟨t, ht, rfl⟩, hr⟩
    rw [expandTree_resolved] at hr
    exact ⟨t, (sentence_operation_iff hI).2 ⟨ht, hr⟩, rfl⟩
  · rintro ⟨t, ht, rfl⟩
    obtain ⟨ht, hr⟩ := (sentence_operation_iff hI).1 ht
    exact ⟨⟨t, ht, rfl⟩, (expandTree_resolved t).trans hr⟩

/-- Reducing a statement and checking the result is parsing it. -/
theorem check_reduce_eq_ok_iff (hI : ∀ m ∈ s, m.Delivered) : check (reduce s) = .ok n ↔ Derives s n := by
  rw [check_eq_ok_iff, ← reduce_eq_singleton_iff hI]
  refine and_congr_right fun hs => ⟨fun hr => hr n (Node.mem_preorder_self n), fun hr m hm => ?_⟩
  -- the tree passes the check because trees of the grammar are finished
  exact (derives_finished s n hI ((reduce_eq_singleton_iff hI).1 ⟨hs, hr⟩) m hm).1

/-- A statement has one tree at most. -/
theorem derives_unique (hI : ∀ m ∈ s, m.Delivered) (h : Derives s n) (h' : Derives s t) : n = t := by
  rw [← check_reduce_eq_ok_iff hI] at h h'
  exact Except.ok.inj (h.symm.trans h')

/-- Reducing and checking a statement keeps a node exactly if the grammar derives the statement, and
the node is the one tree that the grammar gives it. -/
theorem reduction_parses (s : Statement) (hs : ∀ m ∈ s, m.Delivered) :
    (∀ n, check (reduce s) = .ok n ↔ Derives s n) ∧
      ((∃ n, check (reduce s) = .ok n) ↔ ∃! n, Derives s n) := by
  refine ⟨fun n => check_reduce_eq_ok_iff hs, ?_⟩
  constructor
  · rintro ⟨n, hn⟩
    have hder : Derives s n := (check_reduce_eq_ok_iff hs).1 hn
    exact ⟨n, hder, fun t ht => derives_unique hs ht hder⟩
  · rintro ⟨n, hn, -⟩
    exact ⟨n, (check_reduce_eq_ok_iff hs).2 hn⟩

/-- The nodes of `x += -f(y) * 2`, where `(y)` is a bracket group, and their tree. -/
theorem reduction_parses_compound :
    let at' (column : Nat) : Position := ⟨1, column, []⟩
    let x : Node := .ofToken ⟨.ident, "x", at' 1⟩
    let f : Node := .ofToken ⟨.ident, "f", at' 7⟩
    let y : Node := .ofToken ⟨.ident, "y", at' 9⟩
    let args : Node := ⟨.lpar, "(", [y], true, at' 8⟩
    let two : Node := .ofToken ⟨.number, "2", at' 14⟩
    let tree : Node := ⟨.assign, "=", [x, ⟨.plus, "+", [x, ⟨.star, "*",
      [⟨.neg, "-", [⟨.apply, "call", [f, args], true, at' 7⟩], true, at' 6⟩, two], true, at' 12⟩], true,
      at' 3⟩], true, at' 3⟩
    check (reduce [x, .ofToken ⟨.plusEq, "+=", at' 3⟩, .ofToken ⟨.minus, "-", at' 6⟩, f, args,
      .ofToken ⟨.star, "*", at' 12⟩, two]) = .ok tree := by
  intro at' x f y args two tree
  have hy : y.Finished := (Node.Delivered.ofToken _).finished rfl
  have hargs : args.Delivered := .group rfl (.inl rfl) (by simpa [args] using hy)
  refine ((reduction_parses _ ?_).1 tree).2 ?_
  · simpa [x, f, two] using ⟨Node.Delivered.ofToken _, .ofToken _, .ofToken _, .ofToken _, hargs, .ofToken _, .ofToken _⟩
  · have hcall : Primary [f, args] (f.into .apply "call" [f, args]) :=
      .callable (.call (s := [f]) (.callee (.name rfl)) rfl) fun only h => by cases h.1
    have hneg : Chain [.star, .slash, .mod] (Signed Primary) [.ofToken ⟨.minus, "-", at' 6⟩, f, args]
        ⟨.neg, "-", [⟨.apply, "call", [f, args], true, at' 7⟩], true, at' 6⟩ :=
      .single (.minus rfl (.operand hcall))
    have htwo : Signed Primary [two] two := .operand (.leaf rfl (by decide))
    have hstar := hneg.more (rfl : (Node.ofToken ⟨.star, "*", at' 12⟩).resolved = false) (by decide) htwo
    have htarget : Listing (Tiers (Signed Primary)) [x] x :=
      .single (.single (.single (.single (.single (.operand (.callable (.callee (.name rfl))
        fun only h => by cases h.1))))))
    have hop : (Node.ofToken ⟨.plusEq, "+=", at' 3⟩).resolved = false := rfl
    exact .plain (.more htarget hop (by decide) (.single (.single (.single (.single (.single hstar))))))

end Statement

end Kettle
