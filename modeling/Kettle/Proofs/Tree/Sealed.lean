/-
Nothing waits below a resolved node. Reductions fold nodes into others, take them out of groups, move them between
lists and copy them, also where this comes to no tree in the end. Main statement: whatever the source is, in every
statement at every level of brackets and after any number of the reductions, what is below a resolved node is resolved.
So a statement that is one resolved node passes the check, and the search of the check below that node finds nothing.
-/
import Kettle.Proofs.Statement.Pass
import Kettle.Proofs.Tree.Nesting

namespace Kettle

namespace Node

variable {n c : Node}

/-- Nothing in a tree that is below a resolved node waits for operands. -/
def Sealed (n : Node) : Prop := ∀ m ∈ n.preorder, m.resolved = true → ∀ d ∈ m.preorder, d.resolved = true

theorem Sealed.child (h : n.Sealed) (hc : c ∈ n.children) : c.Sealed := fun m hm => h m (mem_preorder_child hc hm)

theorem Sealed.child_resolved (h : n.Sealed) (hn : n.resolved = true) (hc : c ∈ n.children) : c.resolved = true :=
  h n n.mem_preorder_self hn c (mem_preorder_child hc c.mem_preorder_self)

/-- A tree is sealed if the trees below its root are, and no unresolved one of them stands directly below a resolved root. -/
theorem sealed_of_children (hn : n.resolved = true → ∀ c ∈ n.children, c.resolved = true)
    (hc : ∀ c ∈ n.children, c.Sealed) : n.Sealed := by
  intro m hm hr d hd
  rw [preorder_eq, List.mem_cons, mem_preorderAll] at hm
  rcases hm with rfl | ⟨c, hcm, hm⟩
  · rw [preorder_eq, List.mem_cons, mem_preorderAll] at hd
    rcases hd with rfl | ⟨c, hcm, hd⟩
    · exact hr
    · exact hc c hcm c c.mem_preorder_self (hn hr c hcm) d hd
  · exact hc c hcm m hm hr d hd

/-- A resolved node below which nothing waits. -/
structure Whole (n : Node) : Prop where
  resolved : n.resolved = true
  sealed : n.Sealed

theorem whole_into {kind : Kind} {text : Text} {children : List Node} (h : ∀ c ∈ children, c.Whole) :
    (n.into kind text children).Whole :=
  ⟨rfl, sealed_of_children (fun _ c hc => (h c hc).resolved) fun c hc => (h c hc).sealed⟩

theorem Whole.child (h : n.Whole) (hc : c ∈ n.children) : c.Whole :=
  ⟨h.sealed.child_resolved h.resolved hc, h.sealed.child hc⟩

theorem Sealed.whole_of_isResolved {k : Kind} (h : n.Sealed) (hn : n.isResolved k = true) : n.Whole :=
  ⟨(isResolved_iff.1 hn).1, h⟩

theorem sealed_ofToken (t : Token) : (ofToken t).Sealed :=
  sealed_of_children (by simp [ofToken]) (by simp [ofToken])

end Node

/-! ## One reduction -/

namespace Statement

open Node (Sealed Whole whole_into sealed_of_children)

variable {s t : Statement} {n x op y : Node} {ops : Kind → Bool}

theorem formFunctions_sealed (h : ∀ n ∈ s, n.Sealed) : ∀ n ∈ formFunctions s, n.Sealed := by
  have hparams : ∀ {n params : Node}, isFunctionHead n params = true → params.Sealed → params.Whole := by
    intro n params hh hp
    simp only [isFunctionHead, Bool.and_eq_true] at hh
    exact hp.whole_of_isResolved hh.2
  induction s using formFunctions_induct with
  | nil => exact h
  | single n => exact h
  | headAtEnd n params hh =>
    have hp := hparams hh (h params (by simp))
    simpa using (whole_into (by simpa using hp)).sealed
  | pair n params hh => exact h
  | withBody n params body rest hh hb ih =>
    have hp := hparams hh (h params (by simp))
    have hbody := (h body (by simp)).whole_of_isResolved hb
    refine List.forall_mem_cons.2 ⟨(whole_into (by simpa using ⟨hp, hbody⟩)).sealed, ?_⟩
    exact ih fun m hm => h m (by simp [hm])
  | withoutBody n params body rest hh hb ih =>
    have hp := hparams hh (h params (by simp))
    refine List.forall_mem_cons.2 ⟨(whole_into (by simpa using hp)).sealed, ?_⟩
    exact ih fun m hm => h m (List.mem_cons_of_mem _ (List.mem_cons_of_mem _ hm))
  | other n params body rest hh ih =>
    exact List.forall_mem_cons.2 ⟨h n (by simp), ih fun m hm => h m (List.mem_cons_of_mem _ hm)⟩

theorem formCallsAfter_sealed {callee : Node} (hc : callee.Sealed) (h : ∀ n ∈ s, n.Sealed) :
    ∀ n ∈ formCallsAfter callee s, n.Sealed := by
  induction callee, s using formCallsAfter_induct with
  | nil callee => simpa using hc
  | call callee n rest hcall ih =>
    obtain ⟨hn, hrest⟩ := List.forall_mem_cons.1 h
    rw [Bool.and_eq_true] at hcall
    have hcallee : callee.Whole := ⟨isCallee_resolved hcall.2, hc⟩
    have hargs := hn.whole_of_isResolved hcall.1
    exact ih (whole_into (by simpa using ⟨hcallee, hargs⟩)).sealed hrest
  | other callee n rest _ ih =>
    obtain ⟨hn, hrest⟩ := List.forall_mem_cons.1 h
    exact List.forall_mem_cons.2 ⟨hc, ih hn hrest⟩

theorem formCalls_sealed (h : ∀ n ∈ s, n.Sealed) : ∀ n ∈ formCalls s, n.Sealed := by
  cases s with
  | nil => exact h
  | cons n rest => exact formCallsAfter_sealed (h n (by simp)) fun m hm => h m (by simp [hm])

theorem stripGroup_sealed (h : n.Sealed) : (stripGroup n).Sealed := by
  unfold stripGroup
  split
  · rename_i only hc
    split
    · exact h.child (by simp [hc])
    · exact h
  · exact h

theorem attachSign_sealed {b : Bool} (hn : n.Sealed) (h : ∀ m ∈ s, m.Sealed) : ∀ m ∈ attachSign b n s, m.Sealed := by
  cases s with
  | nil => simpa [attachSign] using hn
  | cons x rest =>
    obtain ⟨hx, hrest⟩ := List.forall_mem_cons.1 h
    rcases attachSign_cases b n x with ⟨kind, -, -, hr, -, hs⟩ | hs
    · have hoperand : x.Whole := ⟨hr, hx⟩
      rw [hs]
      exact List.forall_mem_cons.2 ⟨(whole_into (by simpa using hoperand)).sealed, hrest⟩
    · rw [hs]
      exact List.forall_mem_cons.2 ⟨hn, h⟩

theorem attachSigns_sealed {b : Bool} (h : ∀ n ∈ s, n.Sealed) : ∀ n ∈ attachSigns b s, n.Sealed := by
  induction s generalizing b with
  | nil => exact h
  | cons n rest ih =>
    obtain ⟨hn, hrest⟩ := List.forall_mem_cons.1 h
    exact attachSign_sealed hn (ih hrest)

theorem operation_sealed (hc : canFold ops x op y = true) (hx : x.Sealed) (hy : y.Sealed) : (operation x op y).Sealed := by
  obtain ⟨-, -, hxr, hyr⟩ := canFold_iff.1 hc
  have hleft : x.Whole := ⟨hxr, hx⟩
  have hright : y.Whole := ⟨hyr, hy⟩
  exact (whole_into (by simpa using ⟨hleft, hright⟩)).sealed

theorem foldLeftmost?_sealed (h : ∀ n ∈ s, n.Sealed) (ht : foldLeftmost? ops s = some t) : ∀ n ∈ t, n.Sealed := by
  induction s using foldLeftmost?_induct ops generalizing t with
  | here x op y rest hc =>
    cases ht
    have hop := operation_sealed hc (h x (by simp)) (h y (by simp))
    exact List.forall_mem_cons.2 ⟨hop, fun m hm => h m (by simp [hm])⟩
  | later x op y rest hc ih =>
    obtain ⟨u, hu, rfl⟩ := Option.map_eq_some_iff.1 ht
    exact List.forall_mem_cons.2 ⟨h x (by simp), ih (fun m hm => h m (List.mem_cons_of_mem _ hm)) hu⟩
  | short => cases ht

theorem foldRightmost?_sealed (h : ∀ n ∈ s, n.Sealed) (ht : foldRightmost? ops s = some t) : ∀ n ∈ t, n.Sealed := by
  induction s using foldRightmost?_induct ops generalizing t with
  | later x op y rest u hu ih =>
    cases ht
    exact List.forall_mem_cons.2 ⟨h x (by simp), ih (fun m hm => h m (List.mem_cons_of_mem _ hm)) hu⟩
  | here x op y rest _ hc _ =>
    cases ht
    have hop := operation_sealed hc (h x (by simp)) (h y (by simp))
    exact List.forall_mem_cons.2 ⟨hop, fun m hm => h m (by simp [hm])⟩
  | nowhere => cases ht
  | short => cases ht

/-- What one look keeps, looking again and again keeps. -/
theorem Rescans.sealed {find : Statement → Option Statement} (hr : Rescans find s t)
    (hfind : ∀ {s t : Statement}, (∀ n ∈ s, n.Sealed) → find s = some t → ∀ n ∈ t, n.Sealed) (h : ∀ n ∈ s, n.Sealed) :
    ∀ n ∈ t, n.Sealed := by
  obtain ⟨hrun, -⟩ := hr
  induction hrun with
  | refl => exact h
  | tail _ hstep ih => exact hfind ih hstep

theorem flattenComma_sealed (h : n.Sealed) : (flattenComma n).Sealed := by
  induction n using flattenComma_induct with
  | leaf n hc => exact h
  | nested n head tail hc hcomma ih =>
    rw [Bool.and_eq_true] at hcomma
    have hn := h.whole_of_isResolved hcomma.1
    have hhead : head.Whole := hn.child (by simp [hc])
    -- what moves up from the inner list was below a resolved node too
    refine ih (whole_into fun c hcm => ?_).sealed
    rcases List.mem_append.1 hcm with hcm | hcm
    · exact hhead.child hcm
    · exact hn.child (by simp [hc, hcm])
  | flat n head tail hc hcomma => exact h

theorem attachReturn_sealed (hn : n.Sealed) (h : ∀ m ∈ s, m.Sealed) : ∀ m ∈ attachReturn n s, m.Sealed := by
  rcases attachReturn_cases n s with ⟨-, -, hs⟩ | ⟨x, rest, -, hr, rfl, hs⟩ | hs
  · rw [hs]
    exact List.forall_mem_singleton.2 (whole_into (by simp)).sealed
  · obtain ⟨hx, hrest⟩ := List.forall_mem_cons.1 h
    have hoperand : x.Whole := ⟨hr, hx⟩
    rw [hs]
    exact List.forall_mem_cons.2 ⟨(whole_into (by simpa using hoperand)).sealed, hrest⟩
  · rw [hs]
    exact List.forall_mem_cons.2 ⟨hn, h⟩

theorem attachReturns_sealed (h : ∀ n ∈ s, n.Sealed) : ∀ n ∈ attachReturns s, n.Sealed := by
  induction s with
  | nil => exact h
  | cons n rest ih =>
    obtain ⟨hn, hrest⟩ := List.forall_mem_cons.1 h
    exact attachReturn_sealed hn (ih hrest)

/-- The target of a compound assignment stands in the tree twice once it is written out, resolved in both places. -/
theorem expandCompound_sealed (h : n.Sealed) : (expandCompound n).Sealed := by
  unfold expandCompound
  split
  · rename_i kind target value hk hc
    split
    · rename_i hr
      have hn : n.Whole := ⟨hr, h⟩
      have htarget : target.Whole := hn.child (by simp [hc])
      have hvalue : value.Whole := hn.child (by simp [hc])
      have hoperation : (n.into kind n.text.dropLast [target, value]).Whole :=
        whole_into (by simpa using ⟨htarget, hvalue⟩)
      exact (whole_into (by simpa using ⟨htarget, hoperation⟩)).sealed
    · exact h
  · exact h

mutual

theorem expandTree_sealed : ∀ n : Node, n.Sealed → (expandTree n).Sealed
  | ⟨kind, text, children, resolved, pos⟩, h => by
    refine expandCompound_sealed (sealed_of_children (fun hr c hc => ?_) ?_)
    · -- a tree that is written out keeps its mark
      rw [expandTrees_eq_map] at hc
      obtain ⟨d, hd, rfl⟩ := List.mem_map.1 hc
      rw [expandTree_resolved]
      exact h.child_resolved hr hd
    · exact expandTrees_sealed children fun c hc => h.child hc

theorem expandTrees_sealed : ∀ s : Statement, (∀ n ∈ s, n.Sealed) → ∀ n ∈ expandTrees s, n.Sealed
  | [], h => h
  | n :: ns, h => by
    obtain ⟨hn, hns⟩ := List.forall_mem_cons.1 h
    exact List.forall_mem_cons.2 ⟨expandTree_sealed n hn, expandTrees_sealed ns hns⟩

end

/-- Every reduction keeps the nodes of a statement sealed, whatever the statement is. -/
theorem Reduction.apply_sealed (r : Reduction) (h : ∀ n ∈ s, n.Sealed) : ∀ n ∈ r.apply s, n.Sealed := by
  cases r with
  | functions => exact formFunctions_sealed h
  | calls => exact formCalls_sealed h
  | groups => exact List.forall_mem_map.2 fun n hn => stripGroup_sealed (h n hn)
  | signs => exact attachSigns_sealed h
  | tier t => exact (foldLeft_rescans t.has s).sealed foldLeftmost?_sealed h
  | commas => exact List.forall_mem_map.2 fun n hn => flattenComma_sealed (h n hn)
  | assignments => exact (foldRight_rescans isAssignment s).sealed foldRightmost?_sealed h
  | returns => exact attachReturns_sealed h
  | compounds => exact expandTrees_sealed s h

/-- So does any row of reductions. -/
theorem foldl_apply_sealed (rs : List Reduction) (h : ∀ n ∈ s, n.Sealed) :
    ∀ n ∈ rs.foldl (fun s r => r.apply s) s, n.Sealed :=
  List.foldlRecOn (motive := fun s : Statement => ∀ n ∈ s, n.Sealed) rs _ h fun _ hs r _ => r.apply_sealed hs

theorem reduce_sealed (h : ∀ n ∈ s, n.Sealed) : ∀ n ∈ s.reduce, n.Sealed := foldl_apply_sealed Reduction.all h

end Statement

/-! ## Levels of brackets -/

namespace Tree

open Event (Items items)
open Node (Sealed Whole)

variable {limits : Limits} {source : Text} {es row : Events Node} {n : Node} {s : Statement}

/-- The nodes at one level of brackets: tokens, and the groups that are built of what is inside brackets. -/
def grouped (limits : Limits) (depth : Nat) (es : Events Node) : Events Node :=
  group (fun n ns => (build limits depth n ns).events) none es

/-- A bracket around some nodes. -/
def around (opener : Node) (inner : List Node) : Node := ⟨opener.kind, opener.text, inner, opener.resolved, opener.pos⟩

/-- Brackets around the nodes inside them, with nothing built of these. -/
def enclose (opener : Node) (inner : List Node) : Events Node := [.item (around opener inner)]

/-- Whether a node opens a bracket. -/
def opens (n : Node) : Bool := n.kind.closer?.isSome && !n.resolved

/-- The nodes inside each bracket that grouping finds. -/
def insides (es : Events Node) : List (List Node) :=
  ((items (group enclose none es)).filter opens).map Node.children

/-- The nodes at every level of brackets, the outermost first: those of the row itself, and those of the insides of its
brackets as long as more levels may follow. -/
def regions (limits : Limits) : (depth : Nat) → Events Node → List (Events Node)
  | 0, es => [grouped limits 0 es]
  | depth + 1, es =>
    grouped limits (depth + 1) es :: (insides es).flatMap fun inner => regions limits depth (inner.map .item)

theorem Built.chain_events_nil (b : Built) : Event.chain b.events [] = b.events := by
  obtain ⟨complaints, result⟩ := b
  induction complaints with
  | nil => cases result <;> rfl
  | cons c cs ih => exact congrArg _ ih

theorem opens_around {opener : Node} (h : IsToken opener) (hk : opener.kind.closer?.isSome) (inner : List Node) :
    opens (around opener inner) = true := by
  obtain ⟨c, hc⟩ := Option.isSome_iff_exists.1 hk
  simp [opens, around, hc, h.loose (closer?_brackets hc).1]

theorem around_around {opener : Node} (h : IsToken opener) (inner : List Node) :
    around (around opener inner) [] = opener := by
  obtain ⟨t, rfl⟩ := h
  rfl

/-- What becomes of what grouping finds: a bracket becomes what is made of the nodes inside it, any other node stays. -/
def fill (inside : Node → List Node → Built) (n : Node) : Events Node :=
  if opens n then (inside (around n []) n.children).events else [.item n]

theorem fill_around (inside : Node → List Node → Built) {p : Pending} (h : p.Holds IsToken) (inner : List Node) :
    fill inside (around p.opener inner) = (inside p.opener inner).events := by
  rw [fill, if_pos (opens_around h.token h.opener inner), around_around h.token]
  rfl

/-- Grouping builds the brackets that it finds, one after the other, each of the nodes inside it. So the insides that the
levels below are made of are those that are built. -/
theorem group_eq_each (inside : Node → List Node → Built) (pending : Option Pending) (es : Events Node)
    (hp : ∀ p ∈ pending, p.Holds IsToken) (hes : Items IsToken es) :
    group (fun o ns => (inside o ns).events) pending es = Event.each (fill inside) (group enclose pending es) := by
  have hrest : ∀ {e : Event Complaint Fault Node} {es : Events Node}, Items IsToken (e :: es) → Items IsToken es :=
    fun h n hn => h n (List.mem_cons_of_mem _ hn)
  have hadd : ∀ {p : Pending} {n : Node} {es : Events Node} (depth : Nat), p.Holds IsToken →
      Items IsToken (.item n :: es) → ∀ q ∈ some (⟨p.opener, depth, n :: p.inner⟩ : Pending), q.Holds IsToken := by
    rintro p n es depth hp hes q ⟨⟩
    exact hp.add (hes n (by simp)) depth
  -- An open bracket takes nodes in; it is built where it is closed, where the source ends, and where the row ends, and in
  -- each of these places it was found as it is built.
  induction pending, es using group_induct (fun o ns => (inside o ns).events) with
  | nil => rfl
  | unclosed p =>
    rw [group, enclose, Event.each, Event.each, Event.each, fill_around inside (hp p rfl), Built.chain_events_nil]
  | halt pending e rest => cases pending <;> rfl
  | report pending r rest ih =>
    have hgroup : group enclose pending (.report r :: rest) = .report r :: group enclose pending rest := by
      cases pending <;> rfl
    rw [hgroup, Event.each, ih hp (hrest hes)]
  | opening n rest hn ih =>
    rw [group, if_pos hn]
    refine ih ?_ (hrest hes)
    rintro p ⟨⟩
    exact ⟨(Bool.and_eq_true_iff.1 hn).1, hes n (by simp), by simp [Pending.start]⟩
  | outside n rest hn ih =>
    rw [group, if_neg hn, Event.each, fill, opens, if_neg hn, ih (by simp) (hrest hes)]
    rfl
  | deeper p n rest hn ih =>
    rw [group, if_pos hn]
    exact ih (hadd _ (hp p rfl) hes) (hrest hes)
  | closing p n rest hn hclose hone ih =>
    rw [group, if_neg hn, if_pos hclose, if_pos hone, ih (by simp) (hrest hes)]
    exact congrArg (Event.chain · _) (fill_around inside (hp p rfl) _).symm
  | shallower p n rest hn hclose hone ih =>
    rw [group, if_neg hn, if_pos hclose, if_neg hone]
    exact ih (hadd _ (hp p rfl) hes) (hrest hes)
  | ending p n rest hn hclose heof ih =>
    rw [group, if_neg hn, if_neg hclose, if_pos heof, ih (by simp) (hrest hes)]
    exact congrArg (.report p.unclosed :: Event.chain · _) (fill_around inside (hp p rfl) _).symm
  | inside p n rest hn hclose heof ih =>
    rw [group, if_neg hn, if_neg hclose, if_neg heof]
    exact ih (hadd _ (hp p rfl) hes) (hrest hes)

/-- What grouping finds: tokens, and brackets around tokens. -/
structure IsFound (n : Node) : Prop where
  token : opens n = false → IsToken n
  inner : ∀ c ∈ n.children, IsToken c

theorem enclose_items (hes : Items IsToken es) : Items IsFound (group enclose none es) := by
  refine group_items (T := IsToken) ?_ ?_ none es (by simp) hes
  · intro o ns ho htoken hns n hn
    obtain rfl : n = around o ns := by simpa [enclose] using hn
    exact ⟨by simp [opens_around htoken ho], hns⟩
  · rintro n ⟨t, rfl⟩
    exact ⟨fun _ => ⟨t, rfl⟩, by simp [Node.ofToken]⟩

/-- A statement of sealed nodes is left out, or settled to a node below which nothing waits. -/
theorem settle_whole (h : ∀ m ∈ s, m.Sealed) : Items Whole (settle limits source s) := by
  intro n hn
  obtain ⟨hs, hr⟩ := Statement.check_eq_ok_iff.1 (check_of_item hn)
  exact ⟨hr n n.mem_preorder_self, Statement.reduce_sealed h n (by simp [hs])⟩

theorem close_whole {opener : Node} (h : Items Sealed row)
    (hn : (close opener (statements limits source row)).result = .ok n) : n.Whole := by
  rw [close_eq_ok hn]
  refine Node.whole_into fun c hc => ?_
  refine (split_items [] row (by simp) fun m hm _ => h m hm).each (fun s hs => ?_) c (Event.mem_items.1 hc)
  exact settle_whole hs.2

theorem grouped_of_build {depth : Nat} (hb : ∀ {opener : Node} {inner : List Node}, (∀ m ∈ inner, IsToken m) →
    ∀ n, (build limits depth opener inner).result = .ok n → n.Whole) (hes : Items IsToken es) :
    Items Sealed (grouped limits depth es) := by
  rw [grouped, group_eq_each (build limits depth) none es (by simp) hes]
  refine (enclose_items hes).each fun n hn => ?_
  unfold fill
  split
  · exact Built.events_items fun m hm => (hb hn.inner m hm).sealed
  · rename_i hopens
    obtain ⟨t, rfl⟩ := hn.token (by simpa using hopens)
    simpa [Items] using Node.sealed_ofToken t

/-- What is built of a bracket is a group of whole trees, because the nodes inside it are sealed. The induction is on the
levels of brackets that may follow. -/
theorem build_whole (limits : Limits) : ∀ (depth : Nat) {opener : Node} {inner : List Node}, (∀ m ∈ inner, IsToken m) →
    ∀ n, (build limits depth opener inner).result = .ok n → n.Whole
  | 0, _, _, _, n, h => by cases h
  | depth + 1, _, _, hi, _, h => close_whole (grouped_of_build (build_whole limits depth) (.map_item hi)) h

theorem grouped_sealed (limits : Limits) (depth : Nat) (hes : Items IsToken es) : Items Sealed (grouped limits depth es) :=
  grouped_of_build (build_whole limits depth) hes

theorem insides_tokens (hes : Items IsToken es) : ∀ inner ∈ insides es, ∀ n ∈ inner, IsToken n := by
  intro inner hinner
  obtain ⟨n, hn, rfl⟩ := List.mem_map.1 hinner
  exact (enclose_items hes n (Event.mem_items.1 (List.mem_filter.1 hn).1)).inner

theorem regions_sealed (limits : Limits) (depth : Nat) (hes : Items IsToken es) :
    ∀ row ∈ regions limits depth es, Items Sealed row := by
  induction depth generalizing es with
  | zero => simpa [regions] using grouped_sealed limits 0 hes
  | succ depth ih =>
    refine List.forall_mem_cons.2 ⟨grouped_sealed limits (depth + 1) hes, fun row hrow => ?_⟩
    obtain ⟨inner, hinner, hrow⟩ := List.mem_flatMap.1 hrow
    exact ih (.map_item (insides_tokens hes inner hinner)) row hrow

end Tree

/-- Whatever the source is, at every level of brackets the nodes that are split into statements are sealed, and so are
those of every statement after each of the reductions, be it one that does not reduce. So where a statement is reduced to
one resolved node, the search of the check below that node finds nothing, and the check passes it; and the tree of the
source is sealed. -/
theorem resolved_nodes_stay_sealed (limits : Limits) (source text : Text) :
    (∀ row ∈ Tree.regions limits limits.brackets (Tree.nodes (scan source text)),
      (∀ n ∈ Event.items row, n.Sealed) ∧ ∀ s : Statement, s ∈ Event.items (Tree.split [] row) →
        (∀ rs, rs <+: Statement.Reduction.all → ∀ n ∈ rs.foldl (fun s r => r.apply s) s, n.Sealed) ∧
          ∀ n, s.reduce = [n] → n.resolved = true →
            (n.bottomUp.filter fun m => !m.resolved) = [] ∧ s.reduce.check = .ok n) ∧
      ∀ root, (parse limits source text).result = .ok root → root.Sealed := by
  have htokens := Tree.nodes_items (scan source text)
  refine ⟨fun row hrow => ?_, fun root hroot => ?_⟩
  · -- nothing is asked of the statement but that its nodes are sealed, so it may be any that comes up
    have hsealed := Tree.regions_sealed limits limits.brackets htokens row hrow
    refine ⟨fun n hn => hsealed n (Event.mem_items.1 hn), fun s hs => ?_⟩
    have hnodes := (Tree.split_items [] row (by simp) fun n hn _ => hsealed n hn) s (Event.mem_items.1 hs)
    refine ⟨fun rs _ => Statement.foldl_apply_sealed rs hnodes.2, fun n hn hr => ?_⟩
    have hbelow : ∀ m ∈ n.preorder, m.resolved = true :=
      Statement.reduce_sealed hnodes.2 n (by simp [hn]) n n.mem_preorder_self hr
    refine ⟨?_, Statement.check_eq_ok_iff.2 ⟨hn, hbelow⟩⟩
    simpa [List.filter_eq_nil_iff, Node.mem_bottomUp] using hbelow
  · exact (Tree.close_whole (Tree.grouped_sealed limits limits.brackets htokens) hroot).sealed

/-- The argument in `f(-(x += 1), 2 *)` does not reduce: a comma list is left, and an operator that waits after it. -/
theorem resolved_nodes_stay_sealed_unreduced :
    let place (column : Nat) : Position := ⟨1, column, []⟩
    let word (kind : Kind) (text : Text) (column : Nat) : Node := .ofToken ⟨kind, text, place column⟩
    let sum : Node := ⟨.plus, "+", [word .ident "x" 5, word .number "1" 10], true, place 7⟩
    let assignment : Node := ⟨.assign, "=", [word .ident "x" 5, sum], true, place 7⟩
    let inner : Statement := [word .ident "x" 5, word .plusEq "+=" 7, word .number "1" 10]
    let argument : Statement :=
      [word .minus "-" 3, ⟨.lpar, "(", [assignment], true, place 4⟩, word .comma "," 12, word .number "2" 14,
        word .star "*" 16]
    let empty : Node := ⟨.lpar, "(", [], true, place 2⟩
    let outer : Tree.Events Node :=
      [.item (word .ident "f" 1), .report ⟨.misplaced "*", place 16⟩, .item empty, .item (word .eof [] 18)]
    let root : Node :=
      (Tree.root []).into .lbrace "\x7b" [⟨.apply, "call", [word .ident "f" 1, empty], true, place 1⟩]
    Tree.regions .standard Limits.standard.brackets (Tree.nodes (scan [] "f(-(x += 1), 2 *)")) =
        [outer, argument.map .item, inner.map .item] ∧
      argument.reduce.map Node.resolved = [true, false] ∧
      (∀ rs, rs <+: Statement.Reduction.all → ∀ n ∈ rs.foldl (fun s r => r.apply s) argument, n.Sealed) ∧
      inner.reduce = [assignment] ∧ inner.reduce.check = .ok assignment ∧
      (parse .standard [] "f(-(x += 1), 2 *)").result = .ok root ∧ root.Sealed := by
  intro place word sum assignment inner argument empty outer root
  have hregions : Tree.regions .standard Limits.standard.brackets (Tree.nodes (scan [] "f(-(x += 1), 2 *)")) =
      [outer, argument.map .item, inner.map .item] := by
    simp only [outer, argument, inner, assignment, sum, empty, word, place]
    decide +kernel
  have hargument : argument.reduce.map Node.resolved = [true, false] := by
    simp only [argument, assignment, sum, word, place]
    decide +kernel
  have hinner : inner.reduce = [assignment] := by
    simp only [inner, assignment, sum, word, place]
    decide +kernel
  have hroot : (parse .standard [] "f(-(x += 1), 2 *)").result = .ok root := by decide +kernel
  obtain ⟨hrows, htree⟩ := resolved_nodes_stay_sealed .standard [] "f(-(x += 1), 2 *)"
  have hsealed := (hrows (argument.map .item) (by simp [hregions])).2 argument (List.mem_singleton.2 rfl)
  have hpasses := (hrows (inner.map .item) (by simp [hregions])).2 inner (List.mem_singleton.2 rfl)
  exact ⟨hregions, hargument, hsealed.1, hinner, (hpasses.2 assignment hinner rfl).2, hroot, htree root hroot⟩

end Kettle
