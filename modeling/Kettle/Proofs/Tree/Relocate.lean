/-
Trees do not depend on where their tokens are. Moving the tokens of a source moves the nodes that are
built of them and the complaints about them, and nothing else changes. Positions are compared in one place
only, to choose among several operators without operands inside of one operand; what is delivered to the
reductions never leaves an operand with such an operator in it.
-/
import Kettle.Proofs.Token.Append
import Kettle.Proofs.Tree.Recast

namespace Kettle

/-! ## Faults without their places -/

namespace Fault

/-- The fault without its place. -/
def unplaced : Fault → Fault
  | lexical cause _ => lexical cause (.start [])
  | grammar cause _ => grammar cause (.start [])
  | compile cause _ => compile cause (.start [])
  | runtime cause _ => runtime cause none
  | fault => fault

/-- The faults are the same but for their places. -/
def Alike (f f' : Fault) : Prop := f.unplaced = f'.unplaced

end Fault

/-- Two computations agree if they give results that are related, or stop at faults that are alike. -/
def Agree {α β : Type} (R : α → β → Prop) : Except Fault α → Except Fault β → Prop
  | .ok a, .ok b => R a b
  | .error f, .error f' => f.Alike f'
  | _, _ => False

theorem Agree.cases {α β : Type} {R : α → β → Prop} {x : Except Fault α} {x' : Except Fault β} (h : Agree R x x') :
    (∃ a b, x = .ok a ∧ x' = .ok b ∧ R a b) ∨ ∃ f f', x = .error f ∧ x' = .error f' ∧ f.Alike f' := by
  unfold Agree at h
  split at h
  · exact .inl ⟨_, _, rfl, rfl, h⟩
  · exact .inr ⟨_, _, rfl, rfl, h⟩
  · cases h

/-! ## Moved nodes -/

/-- The same place for all positions. -/
def Position.nowhere : Position → Position := fun _ => .start []

/-- The complaint with its position moved. -/
def Complaint.relocate (φ : Position → Position) (c : Complaint) : Complaint := ⟨c.cause, φ c.pos⟩

namespace Node

mutual

/-- The tree with all positions moved. -/
def relocate (φ : Position → Position) : Node → Node
  | ⟨kind, text, children, resolved, pos⟩ => ⟨kind, text, relocateAll φ children, resolved, φ pos⟩

/-- Several trees with all positions moved. -/
def relocateAll (φ : Position → Position) : List Node → List Node
  | [] => []
  | n :: ns => relocate φ n :: relocateAll φ ns

end

variable (φ : Position → Position)

theorem relocateAll_eq (ns : List Node) : relocateAll φ ns = ns.map (relocate φ) := by
  induction ns with
  | nil => rfl
  | cons n ns ih => rw [relocateAll, ih]; rfl

@[simp] theorem relocate_kind (n : Node) : (n.relocate φ).kind = n.kind := by cases n; rfl

@[simp] theorem relocate_text (n : Node) : (n.relocate φ).text = n.text := by cases n; rfl

@[simp] theorem relocate_resolved (n : Node) : (n.relocate φ).resolved = n.resolved := by cases n; rfl

@[simp] theorem relocate_pos (n : Node) : (n.relocate φ).pos = φ n.pos := by cases n; rfl

@[simp] theorem relocate_children (n : Node) : (n.relocate φ).children = n.children.map (relocate φ) := by
  cases n
  exact relocateAll_eq φ _

@[simp] theorem relocate_into (n : Node) (kind : Kind) (text : Text) (children : List Node) :
    (n.into kind text children).relocate φ = (n.relocate φ).into kind text (children.map (relocate φ)) := by
  simp [into, relocate, relocateAll_eq]

@[simp] theorem relocate_isResolved (n : Node) (kind : Kind) : (n.relocate φ).isResolved kind = n.isResolved kind := by
  simp [isResolved]

@[simp] theorem relocate_isLoose (n : Node) (kind : Kind) : (n.relocate φ).isLoose kind = n.isLoose kind := by
  simp [isLoose]

mutual

theorem relocate_relocate (ψ : Position → Position) : ∀ n : Node, (n.relocate φ).relocate ψ = n.relocate (ψ ∘ φ)
  | ⟨kind, text, children, resolved, pos⟩ => by
    rw [relocate, relocate, relocate, relocateAll_relocateAll ψ children]
    rfl

theorem relocateAll_relocateAll (ψ : Position → Position) : ∀ ns : List Node,
    relocateAll ψ (relocateAll φ ns) = relocateAll (ψ ∘ φ) ns
  | [] => rfl
  | n :: ns => by
    rw [relocateAll, relocateAll, relocateAll, relocate_relocate ψ n, relocateAll_relocateAll ψ ns]

end

mutual

/-- Trees are equal but for positions exactly if they are equal when all positions are the same. -/
theorem same_iff : ∀ n m : Node, n.same m = true ↔ n.relocate .nowhere = m.relocate .nowhere
  | ⟨kind, text, children, resolved, pos⟩, ⟨kind', text', children', resolved', pos'⟩ => by
    simp only [same, relocate, Bool.and_eq_true, decide_eq_true_eq, sameAll_iff children children', mk.injEq]
    simp only [Position.nowhere, and_true]
    tauto

theorem sameAll_iff : ∀ ns ms : List Node, sameAll ns ms = true ↔ relocateAll .nowhere ns = relocateAll .nowhere ms
  | [], [] => by simp [sameAll]
  | [], m :: ms => by simp [sameAll, relocateAll]
  | n :: ns, [] => by simp [sameAll, relocateAll]
  | n :: ns, m :: ms => by
    simp only [sameAll, relocateAll, Bool.and_eq_true, same_iff n m, sameAll_iff ns ms, List.cons.injEq]

end

mutual

/-- A move leaves a tree as it is exactly if it leaves the positions in it as they are. -/
theorem relocate_eq_self_iff : ∀ n : Node, n.relocate φ = n ↔ ∀ m ∈ n.preorder, φ m.pos = m.pos
  | ⟨kind, text, children, resolved, pos⟩ => by
    rw [relocate, preorder, List.forall_mem_cons, ← relocateAll_eq_self_iff children, mk.injEq]
    tauto

theorem relocateAll_eq_self_iff : ∀ ns : List Node, relocateAll φ ns = ns ↔ ∀ m ∈ preorderAll ns, φ m.pos = m.pos
  | [] => by simp [relocateAll, preorderAll]
  | n :: ns => by
    rw [relocateAll, preorderAll, List.forall_mem_append, List.cons.injEq, relocate_eq_self_iff n,
      relocateAll_eq_self_iff ns]

end

theorem relocate_ofToken (t : Token) : (ofToken t).relocate φ = ofToken (t.relocate φ) := rfl

mutual

theorem compact_relocate : ∀ n : Node, (n.relocate φ).compact = n.compact
  | ⟨kind, text, children, resolved, pos⟩ => by
    have hempty : (relocateAll φ children).isEmpty = children.isEmpty := by cases children <;> rfl
    rw [relocate, compact, compact, compactAll_relocate children, hempty]

theorem compactAll_relocate : ∀ ns : List Node, compactAll (relocateAll φ ns) = compactAll ns
  | [] => rfl
  | n :: ns => by rw [relocateAll, compactAll, compactAll, compact_relocate n, compactAll_relocate ns]

end

theorem mergeLevels_map (f : Node → Node) : ∀ a b : List (List Node),
    mergeLevels (a.map (List.map f)) (b.map (List.map f)) = (mergeLevels a b).map (List.map f)
  | [], b => by simp [mergeLevels]
  | a :: as, [] => by simp [mergeLevels]
  | a :: as, b :: bs => by
    rw [List.map_cons, List.map_cons, mergeLevels, mergeLevels, mergeLevels_map f as bs]
    simp

mutual

theorem preorder_relocate : ∀ n : Node, (n.relocate φ).preorder = n.preorder.map (relocate φ)
  | ⟨kind, text, children, resolved, pos⟩ => by
    rw [relocate, preorder, preorder, preorderAll_relocate children]
    rfl

theorem preorderAll_relocate : ∀ ns : List Node, preorderAll (relocateAll φ ns) = (preorderAll ns).map (relocate φ)
  | [] => rfl
  | n :: ns => by
    rw [relocateAll, preorderAll, preorderAll, preorder_relocate n, preorderAll_relocate ns, List.map_append]

end

mutual

@[simp] theorem depth_relocate : ∀ n : Node, (n.relocate φ).depth = n.depth
  | ⟨kind, text, children, resolved, pos⟩ => by rw [relocate, depth, depth, depthAll_relocate children]

theorem depthAll_relocate : ∀ ns : List Node, depthAll (relocateAll φ ns) = depthAll ns
  | [] => rfl
  | n :: ns => by rw [relocateAll, depthAll, depthAll, depth_relocate n, depthAll_relocate ns]

end

mutual

theorem levels_relocate : ∀ n : Node, (n.relocate φ).levels = n.levels.map (List.map (relocate φ))
  | ⟨kind, text, children, resolved, pos⟩ => by
    rw [relocate, levels, levels, levelsAll_relocate children]
    rfl

theorem levelsAll_relocate : ∀ ns : List Node,
    levelsAll (relocateAll φ ns) = (levelsAll ns).map (List.map (relocate φ))
  | [] => rfl
  | n :: ns => by
    rw [relocateAll, levelsAll, levelsAll, levels_relocate n, levelsAll_relocate ns, mergeLevels_map]

end

theorem bottomUp_relocate (n : Node) : (n.relocate φ).bottomUp = n.bottomUp.map (relocate φ) := by
  rw [bottomUp, bottomUp, levels_relocate, ← List.map_reverse, ← List.map_flatten]

end Node

/-! ## Reductions of moved statements -/

namespace Statement

variable (φ : Position → Position)

theorem formFunctions_relocate (s : Statement) :
    formFunctions (s.map (Node.relocate φ)) = (formFunctions s).map (Node.relocate φ) := by
  have hhead : ∀ n p : Node, isFunctionHead (n.relocate φ) (p.relocate φ) = isFunctionHead n p := by
    simp [isFunctionHead]
  induction s using formFunctions_induct with
  | nil => rfl
  | single n => rfl
  | headAtEnd n params h => simp [formFunctions, hhead, h]
  | pair n params h => simp [formFunctions, hhead, h]
  | withBody n params body rest h hb ih => simp [formFunctions, hhead, h, hb, ih]
  | withoutBody n params body rest h hb ih => simpa [formFunctions, hhead, h, hb] using ih
  | other n params body rest h ih => simpa [formFunctions, hhead, h] using ih

theorem formCallsAfter_relocate (callee : Node) (s : Statement) :
    formCallsAfter (callee.relocate φ) (s.map (Node.relocate φ)) =
      (formCallsAfter callee s).map (Node.relocate φ) := by
  have hcallee : ∀ n : Node, isCallee (n.relocate φ) = isCallee n := by simp [isCallee]
  induction callee, s using formCallsAfter_induct with
  | nil => rfl
  | call callee n rest h ih =>
    rw [List.map_cons, formCallsAfter, if_pos (by simpa [hcallee] using h), ← ih]
    simp
  | other callee n rest h ih =>
    rw [List.map_cons, formCallsAfter, if_neg (by simpa [hcallee] using h), ih]
    rfl

theorem formCalls_relocate (s : Statement) :
    formCalls (s.map (Node.relocate φ)) = (formCalls s).map (Node.relocate φ) := by
  cases s with
  | nil => rfl
  | cons n rest => exact formCallsAfter_relocate φ n rest

theorem stripGroup_relocate (n : Node) : stripGroup (n.relocate φ) = (stripGroup n).relocate φ := by
  unfold stripGroup
  rw [Node.relocate_children]
  match n.children with
  | [] => rfl
  | [only] =>
    simp only [List.map_cons, List.map_nil, Node.relocate_isResolved, Node.relocate_kind]
    split <;> rfl
  | _ :: _ :: _ => rfl

theorem stripGroups_relocate (s : Statement) :
    stripGroups (s.map (Node.relocate φ)) = (stripGroups s).map (Node.relocate φ) := by
  simp [stripGroups, stripGroup_relocate]

theorem attachSign_relocate (b : Bool) (n : Node) (s : Statement) :
    attachSign b (n.relocate φ) (s.map (Node.relocate φ)) = (attachSign b n s).map (Node.relocate φ) := by
  cases s with
  | nil => rfl
  | cons x rest =>
    rw [List.map_cons, attachSign, attachSign]
    simp only [Node.relocate_kind, Node.relocate_resolved, Node.relocate_text]
    split
    · split <;> simp
    · rfl

theorem attachSigns_relocate (b : Bool) (s : Statement) :
    attachSigns b (s.map (Node.relocate φ)) = (attachSigns b s).map (Node.relocate φ) := by
  induction s generalizing b with
  | nil => rfl
  | cons n rest ih => rw [List.map_cons, attachSigns, attachSigns, Node.relocate_resolved, ih, attachSign_relocate]

variable {ops : Kind → Bool}

theorem operation_relocate (x op y : Node) :
    operation (x.relocate φ) (op.relocate φ) (y.relocate φ) = (operation x op y).relocate φ := by
  simp [operation]

theorem canFold_relocate (x op y : Node) :
    canFold ops (x.relocate φ) (op.relocate φ) (y.relocate φ) = canFold ops x op y := by
  simp [canFold]

theorem foldLeft_relocate : ∀ s : Statement,
    foldLeft ops (s.map (Node.relocate φ)) = (foldLeft ops s).map (Node.relocate φ)
  | [] => by simp
  | [_] => by simp
  | [_, _] => by simp
  | x :: op :: y :: rest => by
    simp only [List.map_cons]
    rw [foldLeft_cons_cons_cons, foldLeft_cons_cons_cons, canFold_relocate, operation_relocate]
    split
    · exact foldLeft_relocate (operation x op y :: rest)
    · exact congrArg _ (foldLeft_relocate (op :: y :: rest))
termination_by s => s.length

theorem joinRight_relocate (x : Node) (s : Statement) :
    joinRight ops (x.relocate φ) (s.map (Node.relocate φ)) = (joinRight ops x s).map (Node.relocate φ) := by
  match s with
  | [] => rfl
  | [_] => rfl
  | op :: y :: rest =>
    simp only [List.map_cons, joinRight, canFold_relocate, operation_relocate]
    split <;> rfl

theorem foldRight_relocate (s : Statement) :
    foldRight ops (s.map (Node.relocate φ)) = (foldRight ops s).map (Node.relocate φ) := by
  induction s with
  | nil => simp
  | cons x s ih => rw [List.map_cons, foldRight_cons, foldRight_cons, ih, joinRight_relocate]

theorem flattenComma_relocate (n : Node) : flattenComma (n.relocate φ) = (flattenComma n).relocate φ := by
  induction n using flattenComma_induct with
  | leaf n hc => exact flattenComma_of_not (.inr (by simp [hc]))
  | nested n head tail hc h ih =>
    simp only [Bool.and_eq_true, decide_eq_true_eq] at h
    have hn : (n.relocate φ).isResolved .comma = true := by simpa using h.1
    have hchildren : (n.relocate φ).children = head.relocate φ :: tail.map (Node.relocate φ) := by simp [hc]
    rw [← ih, flattenComma_cons hn hchildren (by simpa using h.2)]
    simp
  | flat n head tail hc h =>
    refine flattenComma_of_not ?_
    simp only [Bool.and_eq_true, decide_eq_true_eq, not_and] at h
    cases hn : n.isResolved .comma with
    | false => exact .inl (by simpa using hn)
    | true => exact .inr (by simpa [hc] using h hn)

theorem flattenCommas_relocate (s : Statement) :
    flattenCommas (s.map (Node.relocate φ)) = (flattenCommas s).map (Node.relocate φ) := by
  simp [flattenCommas, flattenComma_relocate]

theorem attachReturn_relocate (n : Node) (s : Statement) :
    attachReturn (n.relocate φ) (s.map (Node.relocate φ)) = (attachReturn n s).map (Node.relocate φ) := by
  unfold attachReturn
  rw [Node.relocate_isLoose]
  split
  · cases s with
    | nil => simp
    | cons x rest =>
      simp only [List.map_cons, Node.relocate_resolved]
      split <;> simp
  · rfl

theorem attachReturns_relocate (s : Statement) :
    attachReturns (s.map (Node.relocate φ)) = (attachReturns s).map (Node.relocate φ) := by
  induction s with
  | nil => rfl
  | cons n rest ih => rw [List.map_cons, attachReturns, attachReturns, ih, attachReturn_relocate]

theorem expandCompound_relocate (n : Node) : expandCompound (n.relocate φ) = (expandCompound n).relocate φ := by
  unfold expandCompound
  rw [Node.relocate_kind, Node.relocate_children, Node.relocate_resolved, Node.relocate_text]
  cases n.kind.compound? with
  | none => rfl
  | some op =>
    match n.children with
    | [] => rfl
    | [_] => rfl
    | [target, value] =>
      simp only [List.map_cons, List.map_nil]
      split <;> simp
    | _ :: _ :: _ :: _ => rfl

mutual

theorem expandTree_relocate : ∀ n : Node, expandTree (n.relocate φ) = (expandTree n).relocate φ
  | ⟨kind, text, children, resolved, pos⟩ => by
    rw [Node.relocate, expandTree, expandTree, expandTrees_relocate children, ← expandCompound_relocate]
    rfl

theorem expandTrees_relocate : ∀ ns : List Node,
    expandTrees (Node.relocateAll φ ns) = Node.relocateAll φ (expandTrees ns)
  | [] => rfl
  | n :: ns => by
    rw [Node.relocateAll, expandTrees, expandTrees, expandTree_relocate n, expandTrees_relocate ns]
    rfl

end

theorem fold_relocate (s : Statement) : fold (s.map (Node.relocate φ)) = (fold s).map (Node.relocate φ) := by
  simp only [fold_eq, operands, listings, tiers]
  rw [formFunctions_relocate, formCalls_relocate, stripGroups_relocate, attachSigns_relocate, foldLeft_relocate,
    foldLeft_relocate, foldLeft_relocate, foldLeft_relocate, foldLeft_relocate, flattenCommas_relocate,
    foldRight_relocate, attachReturns_relocate]

theorem reduce_relocate (s : Statement) :
    reduce (s.map (Node.relocate φ)) = (reduce s).map (Node.relocate φ) := by
  rw [reduce_eq_expandTrees, fold_relocate, reduce_eq_expandTrees, ← Node.relocateAll_eq, ← Node.relocateAll_eq,
    expandTrees_relocate]

theorem copied_relocate (ns : List Node) : copied (ns.map (Node.relocate φ)) = (copied ns).map (Node.relocate φ) := by
  unfold copied
  rw [← Node.relocateAll_eq, Node.preorderAll_relocate, List.filterMap_map, List.map_filterMap]
  refine congrFun (congrArg List.filterMap (funext fun n => ?_)) _
  simp only [Function.comp_apply, Node.relocate_kind, Node.relocate_children, Node.relocate_resolved]
  cases n.kind.compound? with
  | none => rfl
  | some op =>
    match n.children with
    | [] | [_] | _ :: _ :: _ :: _ => rfl
    | [target, value] =>
      simp only [List.map_cons, List.map_nil, expandTree_relocate]
      split <;> rfl

/-- How deep a statement goes does not depend on where it stands. -/
theorem exhausts_relocate (limit : Nat) (s : Statement) :
    exhausts limit (s.map (Node.relocate φ)) = exhausts limit s := by
  simp [exhausts, copiesTooDeep, writesTooDeep, fold_relocate, copied_relocate, reduce_relocate, Function.comp_def]

/-- A statement that holds something is not reduced to nothing. -/
theorem reduce_ne_nil {s : Statement} (h : s ≠ []) : reduce s ≠ [] := by
  intro hr
  have hreturns : ∀ {u : Statement}, attachReturns u = [] → u = [] := by
    intro u hu
    cases u with
    | nil => rfl
    | cons n rest =>
      unfold attachReturns attachReturn at hu
      split at hu
      · split at hu
        · cases hu
        · split at hu <;> cases hu
      · cases hu
  have htrees : ∀ {u : Statement}, expandTrees u = [] → u = [] := by
    intro u hu
    cases u with
    | nil => rfl
    | cons n rest => cases hu
  rw [reduce_eq] at hr
  have h₁ := (foldRight_local _).ofNil (hreturns (htrees hr))
  have h₂ := tiers_local.ofNil (listings_local.ofNil h₁)
  exact h (operands_local.ofNil (attachSigns_passes.ofNil h₂))

end Statement

/-! ## Stages on moved nodes -/

namespace Statement

variable (φ : Position → Position)

/-- The result of a check with its positions moved. -/
def relocateResult : Except Complaint Node → Except Complaint Node
  | .ok n => .ok (n.relocate φ)
  | .error c => .error (c.relocate φ)

theorem check_reduce_relocate {s : Statement} (hs : s ≠ []) (hI : ∀ m ∈ s, m.Delivered) :
    check (reduce (s.map (Node.relocate φ))) = relocateResult φ (check (reduce s)) := by
  have hloose : ((fun m : Node => !m.resolved) ∘ Node.relocate φ) = fun m => !m.resolved := by
    funext m; simp
  have hne := reduce_ne_nil hs
  have hderives : ∀ n, reduce s = [n] → n.resolved = true → Derives s n :=
    fun n hn hr => (reduce_eq_singleton_iff hI).1 ⟨hn, hr⟩
  rw [reduce_relocate]
  generalize reduce s = t at hne hderives ⊢
  unfold check
  rw [List.find?_map, hloose]
  cases hfind : t.find? fun m => !m.resolved with
  | some n => simp [relocateResult, misplaced, Complaint.relocate]
  | none =>
    match t with
    | [] => exact absurd rfl hne
    | [n] =>
      -- a single operand is a tree of the grammar, and so there is nothing to choose from
      have hnone : n.bottomUp.filter (fun m => !m.resolved) = [] := by
        have hn := derives_finished s n hI (hderives n rfl (by simpa using hfind))
        exact List.filter_eq_nil_iff.2 fun m hm => by simp [(hn m (Node.mem_bottomUp.1 hm)).1]
      simp only [Option.map_none, List.map_cons, List.map_nil, Node.bottomUp_relocate, List.filter_map, hloose, hnone]
      rfl
    | n :: n' :: rest =>
      have hcompact : Node.compact ∘ Node.relocate φ = Node.compact := by
        funext m; exact Node.compact_relocate φ m
      simp [relocateResult, Complaint.relocate, hcompact, Node.compact_relocate]

end Statement

namespace Tree

open Event (Items)

variable (φ : Position → Position)

/-- Nodes and complaints with all positions moved. -/
def moved : Recast := ⟨Node.relocate φ, Complaint.relocate φ, id⟩

/-- Events about nodes with all positions moved. -/
def relocate (es : Events Node) : Events Node := (moved φ).events es

/-- A way of recasting that moves what is left of a statement moves what it is settled to. -/
theorem settle_relocate {ρ : Recast} {limits : Limits} {source source' : Text} {s : Statement}
    (hsource : tooDeep source' = ρ.fault (tooDeep source)) (hs : s ≠ []) (hI : ∀ m ∈ s, m.Delivered)
    (hnodes : s.map ρ.node = s.map (Node.relocate φ)) (hnode : ∀ n, n.resolved = true → ρ.node n = n.relocate φ)
    (hcomplaint : ρ.complaint = Complaint.relocate φ) :
    settle limits source' (s.map ρ.node) = ρ.events (settle limits source s) := by
  rw [hnodes]
  unfold settle
  rw [Statement.exhausts_relocate, Statement.check_reduce_relocate φ hs hI]
  split
  · simp [Recast.events, Event.map, hsource]
  · cases hcheck : s.reduce.check with
    | error c => simp [Statement.relocateResult, Recast.events, Event.map, hcomplaint]
    | ok n =>
      have hn := (Statement.check_eq_ok_iff.1 hcheck).2 n (Node.mem_preorder_self n)
      simp [Statement.relocateResult, Recast.events, Event.map, hnode n hn]

variable {φ}

/-- Nothing notices that all is moved within its source. -/
theorem moved_unnoticed (hφ : ∀ p, (φ p).source = p.source) : (moved φ).Unnoticed where
  kind := Node.relocate_kind φ
  resolved := Node.relocate_resolved φ
  unclosed := by simp [Pending.unclosed, Recast.pending, moved, Complaint.relocate]
  tooDeep := by simp [moved, hφ]
  close := by simp [moved]
  settle := fun hsource hs hI => settle_relocate φ hsource hs (fun m hm => (hI m hm).2) rfl (fun _ _ => rfl) rfl

end Tree

end Kettle
