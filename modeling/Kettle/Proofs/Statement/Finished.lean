/-
The trees that the grammar gives are finished: every node of them is resolved, and no compound
assignment is left in them. So a compound assignment can be written out where the grammar makes it, or
in the whole tree at the end, with the same result.
-/
import Kettle.Proofs.Statement.Simulation
import Kettle.Statement.Infix
import Kettle.Statement.Whole

namespace Kettle

namespace Node

/-! ## Finished trees -/

theorem mem_preorder_self (n : Node) : n ∈ n.preorder := by cases n; simp [preorder]

theorem mem_preorderAll {m : Node} {ns : List Node} : m ∈ preorderAll ns ↔ ∃ n ∈ ns, m ∈ n.preorder := by
  induction ns with
  | nil => simp [preorderAll]
  | cons n ns ih => simp [preorderAll, ih]

theorem preorder_eq (n : Node) : n.preorder = n :: preorderAll n.children := by cases n; rfl

theorem mem_preorder_child {n c m : Node} (hc : c ∈ n.children) (hm : m ∈ c.preorder) : m ∈ n.preorder := by
  rw [preorder_eq, List.mem_cons, mem_preorderAll]
  exact .inr ⟨c, hc, hm⟩

theorem depth_le_depthAll {c : Node} : ∀ {ns : List Node}, c ∈ ns → c.depth ≤ depthAll ns
  | n :: ns, h => by
    rw [depthAll]
    rcases List.mem_cons.1 h with rfl | h
    · exact Nat.le_max_left _ _
    · exact Nat.le_trans (depth_le_depthAll h) (Nat.le_max_right _ _)

/-- A node of a kind that is no compound assignment is finished if its children are. -/
theorem finished_of_children {n : Node} (hn : n.resolved = true) (hk : n.kind.compound? = none)
    (hc : ∀ c ∈ n.children, c.Finished) : n.Finished := by
  intro m hm
  rw [preorder_eq, List.mem_cons, mem_preorderAll] at hm
  rcases hm with rfl | ⟨c, hcm, hm⟩
  · exact ⟨hn, hk⟩
  · exact hc c hcm m hm

theorem Finished.child {n c : Node} (h : n.Finished) (hc : c ∈ n.children) : c.Finished := fun m hm =>
  h m (mem_preorder_child hc hm)

theorem Delivered.finished {n : Node} (h : n.Delivered) (hn : n.resolved = true) : n.Finished := by
  cases h with
  | token h => rw [hn] at h; cases h
  | leaf _ hk hc =>
    refine finished_of_children hn ?_ (by simp [hc])
    cases hkind : n.kind <;> rw [hkind] at hk <;> first | rfl | cases hk
  | group _ hk hc =>
    refine finished_of_children hn ?_ hc
    rcases hk with hk | hk <;> rw [hk] <;> rfl

end Node

namespace Statement

variable {s u : Statement} {n t x op y : Node} {P : Phrases}

/-- The phrases of a sort, made of what a statement starts from, stand for finished trees. -/
def YieldsFinished (P : Phrases) : Prop := ∀ s t, (∀ m ∈ s, m.Delivered) → P s t → t.Finished

theorem Callee.finished (hI : ∀ m ∈ s, m.Delivered) (h : Callee s t) : t.Finished := by
  cases h with
  | name hn => exact (hI t (by simp)).finished (Node.isResolved_iff.1 hn).1
  | group hn => exact (hI t (by simp)).finished (Node.isResolved_iff.1 hn).1
  | @function fn params _ hp =>
    have hparams := (hI params (by simp)).finished (Node.isResolved_iff.1 hp).1
    exact Node.finished_of_children rfl rfl (by simpa [Node.into] using hparams)
  | @functionBody fn params body _ hp hb =>
    have hparams := (hI params (by simp)).finished (Node.isResolved_iff.1 hp).1
    have hbody := (hI body (by simp)).finished (Node.isResolved_iff.1 hb).1
    exact Node.finished_of_children rfl rfl (by simpa [Node.into] using ⟨hparams, hbody⟩)

theorem Calls.finished (hI : ∀ m ∈ s, m.Delivered) (h : Calls s t) : t.Finished := by
  induction h with
  | callee h => exact h.finished hI
  | @call s f args _ ha ih =>
    have hf := ih fun m hm => hI m (by simp [hm])
    have hargs := (hI args (by simp)).finished (Node.isResolved_iff.1 ha).1
    exact Node.finished_of_children rfl rfl (by simpa [Node.into] using ⟨hf, hargs⟩)

theorem primary_finished : YieldsFinished Primary := by
  intro s t hI h
  cases h with
  | leaf hn => exact (hI t (by simp)).finished hn
  | callable h => exact h.finished hI
  | @enclosed n only h =>
    have hn := (hI n (by simp)).finished (Node.isResolved_iff.1 h.1).1
    exact hn.child (by simp [h.2.1])

theorem YieldsFinished.signed (hP : YieldsFinished P) : YieldsFinished (Signed P) := by
  intro s t hI h
  induction h with
  | operand h => exact hP _ _ hI h
  | not _ _ ih =>
    have ht := ih fun m hm => hI m (by simp [hm])
    exact Node.finished_of_children rfl rfl (by simpa [Node.into] using ht)
  | minus _ _ ih =>
    have ht := ih fun m hm => hI m (by simp [hm])
    exact Node.finished_of_children rfl rfl (by simpa [Node.into] using ht)

theorem YieldsFinished.chain (hP : YieldsFinished P) {ops : List Kind}
    (hops : ∀ k ∈ ops, k.compound? = none) : YieldsFinished (Chain ops P) := by
  intro s t hI h
  induction h with
  | single h => exact hP _ _ hI h
  | more _ _ hk hy ih =>
    have hx := ih (forall_left hI)
    have hy := hP _ _ (forall_right hI) hy
    exact Node.finished_of_children rfl (hops _ hk) (by simpa [Node.into] using ⟨hx, hy⟩)

theorem YieldsFinished.elements (hP : YieldsFinished P) {c : Node} {xs : List Node}
    (hI : ∀ m ∈ s, m.Delivered) (h : Elements P s c xs) : ∀ x ∈ xs, x.Finished := by
  induction h with
  | two hs _ hy =>
    have hx := hP _ _ (forall_left hI) hs
    have hy := hP _ _ (forall_right hI) hy
    simpa using ⟨hx, hy⟩
  | more _ _ hy ih =>
    have hxs := ih (forall_left hI)
    have hy := hP _ _ (forall_right hI) hy
    intro x hx
    rcases List.mem_append.1 hx with hx | hx
    · exact hxs x hx
    · rw [List.mem_singleton.1 hx]; exact hy

theorem YieldsFinished.listing (hP : YieldsFinished P) : YieldsFinished (Listing P) := by
  intro s t hI h
  cases h with
  | single h => exact hP _ _ hI h
  | many h => exact Node.finished_of_children rfl rfl (hP.elements hI h)

theorem YieldsFinished.tiers (hP : YieldsFinished P) : YieldsFinished (Tiers P) :=
  YieldsFinished.chain (YieldsFinished.chain (YieldsFinished.chain (YieldsFinished.chain hP
    (by decide)) (by decide)) (by decide)) (by decide)

theorem assigned_finished {x op y : Node} (hx : x.Finished) (hy : y.Finished) : (assigned x op y).Finished := by
  unfold assigned
  split
  · rename_i k hk
    -- the operator in a compound assignment is no compound assignment itself
    have hkind : k.compound? = none := by
      cases hop : op.kind <;> rw [hop] at hk <;> cases hk <;> rfl
    refine Node.finished_of_children rfl rfl ?_
    have hvalue : (op.into k op.text.dropLast [x, y]).Finished :=
      Node.finished_of_children rfl hkind (by simpa [Node.into] using ⟨hx, hy⟩)
    simpa [Node.into] using ⟨hx, hvalue⟩
  · exact Node.finished_of_children rfl rfl (by simpa [Node.into] using ⟨hx, hy⟩)

theorem YieldsFinished.assigning (hP : YieldsFinished P) : YieldsFinished (Assigning assigned P) := by
  intro s t hI h
  induction h with
  | single h => exact hP _ _ hI h
  | more hs _ _ _ ih => exact assigned_finished (hP _ _ (forall_left hI) hs) (ih (forall_right hI))

theorem YieldsFinished.returning (hP : YieldsFinished P) : YieldsFinished (Returning P) := by
  intro s t hI h
  induction h with
  | plain h => exact hP _ _ hI h
  | bare => exact Node.finished_of_children rfl rfl (by simp [Node.into])
  | operand _ _ ih =>
    have ht := ih fun m hm => hI m (by simp [hm])
    exact Node.finished_of_children rfl rfl (by simpa [Node.into] using ht)

/-- The tree of a statement is finished. -/
theorem derives_finished : YieldsFinished Derives :=
  primary_finished.signed.tiers.listing.assigning.returning

/-! ## Compound assignments -/

mutual

/-- A tree without compound assignments stays as it is. -/
theorem expandTree_of_none : ∀ n : Node, (∀ m ∈ n.preorder, m.kind.compound? = none) → expandTree n = n
  | ⟨kind, text, children, resolved, pos⟩, h => by
    have hk : kind.compound? = none := h _ (Node.mem_preorder_self _)
    have hc : expandTrees children = children :=
      expandTrees_of_none children fun m hm => h m (by simp [Node.preorder, hm])
    rw [expandTree, hc, expandCompound]
    simp [hk]

theorem expandTrees_of_none : ∀ ns : List Node, (∀ m ∈ Node.preorderAll ns, m.kind.compound? = none) →
    expandTrees ns = ns
  | [], _ => rfl
  | n :: ns, h => by
    rw [expandTrees, expandTree_of_none n fun m hm => h m (by simp [Node.preorderAll, hm]),
      expandTrees_of_none ns fun m hm => h m (by simp [Node.preorderAll, hm])]

end

theorem expandTrees_eq_map (ns : List Node) : expandTrees ns = ns.map expandTree := by
  induction ns with
  | nil => rfl
  | cons n ns ih => rw [expandTrees, ih, List.map_cons]

theorem expandTree_finished (h : n.Finished) : expandTree n = n :=
  expandTree_of_none n fun m hm => (h m hm).2

theorem expandTree_operation (hk : op.kind ∈ assignKinds) (hx : expandTree x = x) :
    expandTree (operation x op y) = assigned x op (expandTree y) := by
  have htree : expandTree (operation x op y) =
      expandCompound ⟨op.kind, op.text, [x, expandTree y], true, op.pos⟩ := by
    rw [operation, Node.into, expandTree, expandTrees, expandTrees, expandTrees, hx]
  rw [htree, expandCompound, assigned]
  cases hc : op.kind.compound? with
  | some k => simp [Node.into]
  | none =>
    have hkind : op.kind = .assign := by
      revert hk hc
      cases op.kind <;> decide
    simp [hkind, Node.into]

theorem expandTree_ret (n t : Node) :
    expandTree (n.into .ret n.text [t]) = n.into .ret n.text [expandTree t] := rfl

theorem expandTree_resolved (n : Node) : (expandTree n).resolved = n.resolved := by
  obtain ⟨kind, text, children, resolved, pos⟩ := n
  rw [expandTree, expandCompound]
  split
  · split
    · rename_i h; exact h.symm
    · rfl
  · rfl

theorem Assigning.expand (hP : YieldsFinished P) (hI : ∀ m ∈ s, m.Delivered)
    (h : Assigning operation P s t) : Assigning assigned P s (expandTree t) := by
  induction h with
  | single h => rw [expandTree_finished (hP _ _ hI h)]; exact .single h
  | more hs hop hk _ ih =>
    rw [expandTree_operation hk (expandTree_finished (hP _ _ (forall_left hI) hs))]
    exact .more hs hop hk (ih (forall_right hI))

theorem Assigning.exists_expand (hP : YieldsFinished P) (hI : ∀ m ∈ s, m.Delivered)
    (h : Assigning assigned P s t) : ∃ t₀, Assigning operation P s t₀ ∧ expandTree t₀ = t := by
  induction h with
  | single h => exact ⟨_, .single h, expandTree_finished (hP _ _ hI h)⟩
  | @more s s' x op y hs hop hk _ ih =>
    obtain ⟨y₀, hy, rfl⟩ := ih (forall_right hI)
    exact ⟨_, .more hs hop hk hy, expandTree_operation hk (expandTree_finished (hP _ _ (forall_left hI) hs))⟩

/-- Writing out the compound assignments of a tree is writing out each where it is made. -/
theorem sentence_expand_iff (hP : YieldsFinished P) (hI : ∀ m ∈ s, m.Delivered) :
    Sentence assigned P s t ↔ ∃ t₀, Sentence operation P s t₀ ∧ expandTree t₀ = t := by
  have hL := hP.tiers.listing
  constructor
  · intro h
    induction h with
    | plain h =>
      obtain ⟨t₀, h₀, rfl⟩ := Assigning.exists_expand hL hI h
      exact ⟨t₀, .plain h₀, rfl⟩
    | bare hn => exact ⟨_, .bare hn, rfl⟩
    | operand hn _ ih =>
      obtain ⟨t₀, h₀, rfl⟩ := ih fun m hm => hI m (by simp [hm])
      exact ⟨_, .operand hn h₀, expandTree_ret _ _⟩
  · rintro ⟨t₀, h, rfl⟩
    induction h with
    | plain h => exact .plain (Assigning.expand hL hI h)
    | bare hn => exact .bare hn
    | operand hn _ ih => exact .operand hn (ih fun m hm => hI m (by simp [hm]))

end Statement

end Kettle
