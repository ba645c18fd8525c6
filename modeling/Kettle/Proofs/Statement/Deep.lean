/-
How deep a statement gets. A reduction folds nodes into one another, so that what it makes is no deeper than what it
is made of taken together, also where a compound assignment repeats its target in the end. Main statement: a statement
whose nodes, each as deep as it gets by itself, do not come to more than a limit does not exhaust it; nor does any
statement, whatever the limit is, that the grammar derives and that holds no compound assignment.
-/
import Kettle.Proofs.Statement.Derivation
import Kettle.Proofs.Statement.Pass
import Mathlib.Algebra.GroupWithZero.Nat
import Mathlib.Algebra.Order.BigOperators.Group.List
import Mathlib.Algebra.Order.Group.Nat

namespace Kettle.Statement

open Node (depth depthAll depth_le_depthAll)

variable {s u : Statement} {n t c f args x op y : Node} {ops : Kind → Bool} {limit : Nat}

/-! ## Nodes -/

/-- How deep a node is once the compound assignments in it are written out. -/
def reach (n : Node) : Nat := (expandTree n).depth

/-- How deep the nodes of a statement are taken together. -/
def weight (s : Statement) : Nat := (s.map reach).sum

@[simp] theorem weight_nil : weight [] = 0 := rfl

@[simp] theorem weight_cons (n : Node) (s : Statement) : weight (n :: s) = reach n + weight s := List.sum_cons

theorem depthAll_append (ns ms : List Node) : depthAll (ns ++ ms) = max (depthAll ns) (depthAll ms) := by
  induction ns with
  | nil => simp [depthAll]
  | cons n ns ih => rw [List.cons_append, depthAll, depthAll, ih, max_assoc]

theorem depth_eq (n : Node) : n.depth = depthAll n.children + 1 := by cases n; rfl

theorem reach_pos (n : Node) : 0 < reach n := by
  rw [reach, depth_eq]
  exact Nat.succ_pos _

theorem expandTree_eq (n : Node) :
    expandTree n = expandCompound ⟨n.kind, n.text, expandTrees n.children, n.resolved, n.pos⟩ := by
  cases n
  rw [expandTree]

/-- Writing a compound assignment out makes it one level deeper. -/
theorem depth_expandCompound (n : Node) : expandCompound n = n ∨ ∃ target value,
    n.kind.compound?.isSome ∧ n.children = [target, value] ∧
      (expandCompound n).depth = max target.depth value.depth + 2 := by
  unfold expandCompound
  split
  · rename_i kind target value hk hc
    split
    · refine .inr ⟨target, value, by simp [hk], hc, ?_⟩
      simp only [Node.into, depth, depthAll, Node.clone_eq_self]
      omega
    · exact .inl rfl
  · exact .inl rfl

theorem reach_of_none (h : n.kind.compound? = none) : reach n = depthAll (expandTrees n.children) + 1 := by
  rw [reach, expandTree_eq]
  rcases depth_expandCompound ⟨n.kind, n.text, expandTrees n.children, n.resolved, n.pos⟩ with hn | ⟨_, _, hk, -⟩
  · rw [hn]
    rfl
  · rw [h] at hk
    cases hk

theorem lt_reach (n : Node) : depthAll (expandTrees n.children) < reach n := by
  rw [reach, expandTree_eq]
  rcases depth_expandCompound ⟨n.kind, n.text, expandTrees n.children, n.resolved, n.pos⟩ with hn | ⟨x, y, -, hc, hn⟩
  · rw [hn]
    exact Nat.lt_succ_self _
  · rw [hn, show expandTrees n.children = [x, y] from hc]
    simp only [depthAll]
    omega

/-- What is below a node is less deep. -/
theorem reach_child (h : c ∈ n.children) : reach c < reach n := by
  refine (depth_le_depthAll ?_).trans_lt (lt_reach n)
  rw [expandTrees_eq_map]
  exact List.mem_map_of_mem h

theorem reach_le_weight (h : n ∈ s) : reach n ≤ weight s := List.single_le_sum (by simp) _ (List.mem_map_of_mem h)

theorem depthAll_expandTrees_le (s : Statement) : depthAll (expandTrees s) ≤ weight s := by
  induction s with
  | nil => rfl
  | cons n s ih =>
    rw [expandTrees, depthAll, weight_cons, reach]
    omega

/-- A node is no deeper than its children taken together and one more, even if it is a compound assignment: that takes
two levels more than its deepest child, but it has two children. -/
theorem reach_into_le (n : Node) (kind : Kind) (text : Text) (children : List Node) :
    reach (n.into kind text children) ≤ weight children + 1 := by
  have hall := depthAll_expandTrees_le children
  have hinto : reach (n.into kind text children) =
      (expandCompound ⟨kind, text, expandTrees children, true, n.pos⟩).depth := congrArg depth (expandTree_eq _)
  rw [hinto]
  rcases depth_expandCompound ⟨kind, text, expandTrees children, true, n.pos⟩ with hn | ⟨x, y, -, hc, hn⟩
  · rw [hn]
    exact Nat.succ_le_succ hall
  · rw [hn]
    obtain ⟨x', y', rfl⟩ : ∃ x' y', children = [x', y'] := by
      rw [expandTrees_eq_map] at hc
      exact List.length_eq_two.1 (by simpa using congrArg List.length hc)
    have hx := reach_pos x'
    have hy := reach_pos y'
    simp only [expandTrees, List.cons.injEq, and_true] at hc
    rw [← hc.1, ← hc.2]
    simp only [weight_cons, weight_nil, reach] at hx hy ⊢
    omega

/-! ## One reduction -/

theorem formFunctions_weight (s : Statement) : weight (formFunctions s) ≤ weight s := by
  have hhead : ∀ n params : Node, reach (n.into .function n.text [params]) ≤ reach n + reach params := by
    intro n params
    have hinto := reach_into_le n .function n.text [params]
    have hn := reach_pos n
    simp only [weight_cons, weight_nil] at hinto
    omega
  induction s using formFunctions_induct with
  | nil => exact le_refl _
  | single n => exact le_refl _
  | headAtEnd n params _ => simpa using hhead n params
  | pair n params _ => exact le_refl _
  | withBody n params body rest _ _ ih =>
    have hinto := reach_into_le n .function n.text [params, body]
    have hn := reach_pos n
    simp only [weight_cons, weight_nil] at hinto ⊢
    omega
  | withoutBody n params next rest _ _ ih =>
    have hinto := hhead n params
    simp only [weight_cons] at ih ⊢
    omega
  | other n second third rest _ ih =>
    simp only [weight_cons] at ih ⊢
    omega

theorem formCallsAfter_weight (f : Node) (s : Statement) : weight (formCallsAfter f s) ≤ reach f + weight s := by
  induction f, s using formCallsAfter_induct with
  | nil f => simp
  | call f args rest _ ih =>
    -- a call has no node of its own, but it is no compound assignment
    have hcall : reach (f.into .apply "call" [f, args]) ≤ reach f + reach args := by
      have hf := reach_pos f
      have hargs := reach_pos args
      rw [reach_of_none rfl]
      simp only [reach, Node.into, expandTrees, depthAll] at hf hargs ⊢
      omega
    rw [weight_cons]
    omega
  | other f n rest _ ih =>
    rw [weight_cons, weight_cons]
    omega

theorem formCalls_weight (s : Statement) : weight (formCalls s) ≤ weight s := by
  cases s with
  | nil => exact le_refl _
  | cons n rest => exact formCallsAfter_weight n rest

theorem stripGroup_reach (n : Node) : reach (stripGroup n) ≤ reach n := by
  unfold stripGroup
  split
  · rename_i only hc
    split
    · exact (reach_child (by simp [hc])).le
    · exact le_refl _
  · exact le_refl _

theorem attachSign_weight (b : Bool) (n : Node) (s : Statement) : weight (attachSign b n s) ≤ reach n + weight s := by
  cases s with
  | nil => simp [attachSign]
  | cons x rest =>
    rcases attachSign_cases b n x with ⟨kind, -, -, -, -, hs⟩ | hs
    · have hinto := reach_into_le n kind n.text [x]
      have hn := reach_pos n
      rw [hs]
      simp only [weight_cons, weight_nil] at hinto ⊢
      omega
    · rw [hs, weight_cons]

theorem attachSigns_weight (b : Bool) (s : Statement) : weight (attachSigns b s) ≤ weight s := by
  induction s generalizing b with
  | nil => exact le_refl _
  | cons n rest ih =>
    have hsign := attachSign_weight b n (attachSigns n.resolved rest)
    have hrest := ih n.resolved
    rw [attachSigns, weight_cons]
    omega

theorem operation_reach (x op y : Node) : reach (operation x op y) ≤ reach x + reach op + reach y := by
  have hinto := reach_into_le op op.kind op.text [x, y]
  have hop := reach_pos op
  simp only [weight_cons, weight_nil] at hinto
  rw [operation]
  omega

theorem foldLeftmost?_weight (h : foldLeftmost? ops s = some u) : weight u ≤ weight s := by
  induction s using foldLeftmost?_induct ops generalizing u with
  | here x op y rest _ =>
    cases h
    have hop := operation_reach x op y
    simp only [weight_cons]
    omega
  | later x op y rest _ ih =>
    obtain ⟨after, hafter, rfl⟩ := Option.map_eq_some_iff.1 h
    rw [weight_cons, weight_cons]
    exact Nat.add_le_add_left (ih hafter) _
  | short => cases h

theorem foldRightmost?_weight (h : foldRightmost? ops s = some u) : weight u ≤ weight s := by
  induction s using foldRightmost?_induct ops generalizing u with
  | later x op y rest after hafter ih =>
    cases h
    rw [weight_cons, weight_cons]
    exact Nat.add_le_add_left (ih hafter) _
  | here x op y rest _ _ _ =>
    cases h
    have hop := operation_reach x op y
    simp only [weight_cons]
    omega
  | nowhere => cases h
  | short => cases h

/-- What looking once does not make more, looking again and again does not. -/
theorem Rescans.weight_le {find : Statement → Option Statement} (hr : Rescans find s u)
    (hfind : ∀ {s u : Statement}, find s = some u → weight u ≤ weight s) : weight u ≤ weight s := by
  obtain ⟨hrun, -⟩ := hr
  induction hrun with
  | refl => exact le_refl _
  | tail _ hstep ih => exact (hfind hstep).trans ih

theorem flattenComma_reach (n : Node) : reach (flattenComma n) ≤ reach n := by
  induction n using flattenComma_induct with
  | leaf => exact le_refl _
  | nested n head tail hc hcomma ih =>
    refine ih.trans ?_
    -- what moves up was two levels down, or one
    rw [Bool.and_eq_true, Node.isResolved_iff] at hcomma
    rw [reach_of_none rfl, reach_of_none (by rw [hcomma.1.2]; rfl), hc]
    have hhead := lt_reach head
    rw [show (head.into .comma head.text (head.children ++ tail)).children = head.children ++ tail from rfl,
      expandTrees_eq_map, List.map_append, depthAll_append, ← expandTrees_eq_map, ← expandTrees_eq_map, expandTrees,
      depthAll]
    rw [reach] at hhead
    omega
  | flat => exact le_refl _

theorem attachReturn_weight (n : Node) (s : Statement) : weight (attachReturn n s) ≤ reach n + weight s := by
  rcases attachReturn_cases n s with ⟨-, rfl, hs⟩ | ⟨x, rest, -, -, rfl, hs⟩ | hs
  · have hinto := reach_into_le n .ret n.text []
    have hn := reach_pos n
    rw [hs]
    simp only [weight_cons, weight_nil] at hinto ⊢
    omega
  · have hinto := reach_into_le n .ret n.text [x]
    have hn := reach_pos n
    rw [hs]
    simp only [weight_cons, weight_nil] at hinto ⊢
    omega
  · rw [hs, weight_cons]

theorem attachReturns_weight (s : Statement) : weight (attachReturns s) ≤ weight s := by
  induction s with
  | nil => exact le_refl _
  | cons n rest ih =>
    have hreturn := attachReturn_weight n (attachReturns rest)
    rw [attachReturns, weight_cons]
    omega

theorem weight_map_le {f : Node → Node} (h : ∀ n, reach (f n) ≤ reach n) (s : Statement) :
    weight (s.map f) ≤ weight s := by
  induction s with
  | nil => exact le_refl _
  | cons n s ih =>
    rw [List.map_cons, weight_cons, weight_cons]
    exact Nat.add_le_add (h n) ih

/-- No reduction makes the nodes of a statement deeper, taken together, whatever the statement is; the last one writes
out what is reckoned with all along. -/
theorem Reduction.apply_weight {r : Reduction} (hr : r ≠ .compounds) (s : Statement) :
    weight (r.apply s) ≤ weight s := by
  cases r with
  | functions => exact formFunctions_weight s
  | calls => exact formCalls_weight s
  | groups => exact weight_map_le stripGroup_reach s
  | signs => exact attachSigns_weight false s
  | tier t => exact (foldLeft_rescans t.has s).weight_le foldLeftmost?_weight
  | commas => exact weight_map_le flattenComma_reach s
  | assignments => exact (foldRight_rescans isAssignment s).weight_le foldRightmost?_weight
  | returns => exact attachReturns_weight s
  | compounds => exact absurd rfl hr

theorem fold_weight (s : Statement) : weight (fold s) ≤ weight s := by
  have hall : ∀ r ∈ Reduction.all.dropLast, r ≠ .compounds := by decide
  refine List.foldlRecOn (motive := fun u : Statement => weight u ≤ weight s) Reduction.all.dropLast _ (le_refl _) ?_
  exact fun u hu r hr => (r.apply_weight (hall r hr) u).trans hu

/-! ## Limits -/

theorem reach_preorder : ∀ {n m : Node}, m ∈ n.preorder → reach m ≤ reach n
  | n, m, h => by
    rw [Node.preorder_eq, List.mem_cons, Node.mem_preorderAll] at h
    rcases h with rfl | ⟨c, hc, hm⟩
    · exact le_refl _
    · exact (reach_preorder hm).trans (reach_child hc).le
termination_by n => reach n
decreasing_by exact reach_child hc

theorem depth_copied (h : n ∈ copied s) : n.depth ≤ weight s := by
  obtain ⟨m, hm, hn⟩ := List.mem_filterMap.1 h
  obtain ⟨r, hr, hmr⟩ := Node.mem_preorderAll.1 hm
  have hreach := (reach_preorder hmr).trans (reach_le_weight hr)
  split at hn
  · rename_i target value _ hc
    split at hn
    · cases hn
      exact (reach_child (by simp [hc])).le.trans hreach
    · cases hn
  · cases hn

theorem depth_reduce (h : n ∈ reduce s) : n.depth ≤ weight s := by
  rw [reduce_eq_expandTrees, expandTrees_eq_map] at h
  obtain ⟨m, hm, rfl⟩ := List.mem_map.1 h
  exact (reach_le_weight hm).trans (fold_weight s)

/-- A statement exhausts no limit that its nodes do not come to, each as deep as it gets by itself. -/
theorem lt_weight_of_exhausts (h : s.exhausts limit = true) : limit < weight s := by
  simp only [exhausts, copiesTooDeep, writesTooDeep, Bool.or_eq_true, Bool.and_eq_true, List.any_eq_true,
    decide_eq_true_eq] at h
  rcases h with ⟨n, hn, hlimit⟩ | ⟨-, n, hn, hlimit⟩
  · exact hlimit.trans_le ((depth_copied hn).trans (fold_weight s))
  · exact hlimit.trans_le (depth_reduce hn)

/-! ## Statements without compound assignments -/

theorem Assigning.assigned {P : Phrases} (hs : ∀ m ∈ s, m.kind.compound? = none) (h : Assigning operation P s t) :
    Assigning assigned P s t := by
  induction h with
  | single h => exact .single h
  | @more s s' x op y hx hop hk _ ih =>
    have hcompound := hs op (by simp)
    have hassign : op.kind = .assign := by
      revert hk hcompound
      cases op.kind <;> decide
    have hform : operation x op y = Statement.assigned x op y := by
      rw [operation, Statement.assigned, hcompound, hassign]
    rw [hform]
    exact .more hx hop hk (ih (forall_right hs))

/-- A statement without compound assignments has the same tree before these are written out. -/
theorem derives_of_plain (hs : ∀ m ∈ s, m.kind.compound? = none) (h : Sentence operation (Signed Primary) s t) :
    Derives s t := by
  induction h with
  | plain h => exact .plain (h.assigned hs)
  | bare hn => exact .bare hn
  | operand hn _ ih => exact .operand hn (ih fun m hm => hs m (by simp [hm]))

/-- A statement of the grammar exhausts no limit, if what it copies does not go beyond it: nothing is left over. -/
theorem exhausts_of_sentence (hI : ∀ m ∈ s, m.Delivered) (h : Sentence operation (Signed Primary) s t)
    (hcopied : ∀ n ∈ copied [t], n.depth ≤ limit) : s.exhausts limit = false := by
  have hfold : fold s = [t] := ((sentence_operation_iff hI).1 h).1
  have hshallow : copiesTooDeep limit [t] = false := by
    rw [copiesTooDeep, List.any_eq_false]
    exact fun n hn => by simpa using hcopied n hn
  rw [exhausts, hfold, hshallow, writesTooDeep, reduce_eq_expandTrees, hfold]
  simp [expandTrees]

theorem copied_finished (h : ∀ m ∈ t.preorder, m.kind.compound? = none) : copied [t] = [] := by
  refine List.filterMap_eq_nil_iff.2 fun m hm => ?_
  obtain ⟨r, hr, hmr⟩ := Node.mem_preorderAll.1 hm
  rw [List.mem_singleton.1 hr] at hmr
  rw [h m hmr]

/-- A statement of the grammar without compound assignments copies nothing. -/
theorem exhausts_of_derives (hI : ∀ m ∈ s, m.Delivered) (hs : ∀ m ∈ s, m.kind.compound? = none) (h : Derives s n) :
    s.exhausts limit = false := by
  obtain ⟨t, ht, rfl⟩ := (sentence_expand_iff primary_finished.signed hI).1 h
  have hfinished := derives_finished s t hI (derives_of_plain hs ht)
  refine exhausts_of_sentence hI ht ?_
  simp [copied_finished fun m hm => (hfinished m hm).2]

/-- A compound assignment copies what it assigns to. -/
theorem eq_of_copied (hx : x.Finished) (hy : y.Finished) (h : n ∈ copied [operation x op y]) : n = x := by
  obtain ⟨m, hm, hn⟩ := List.mem_filterMap.1 h
  obtain ⟨r, hr, hmr⟩ := Node.mem_preorderAll.1 hm
  rw [List.mem_singleton.1 hr, Node.preorder_eq, List.mem_cons, Node.mem_preorderAll] at hmr
  rcases hmr with rfl | ⟨c, hc, hmc⟩
  · simp only [operation, Node.into] at hn
    split at hn
    · rename_i heq
      cases heq
      simpa [expandTree_finished hx] using hn.symm
    · cases hn
  · have hfinished : m.kind.compound? = none := by
      obtain rfl | rfl : c = x ∨ c = y := by simpa [operation, Node.into] using hc
      · exact (hx m hmc).2
      · exact (hy m hmc).2
    rw [hfinished] at hn
    cases hn

end Kettle.Statement
