/-
How deep brackets and nodes go. What is built of well-nested brackets does not depend on how many may be inside one
another, as long as no more of them are open at once; and if more are, the building stops. Nodes get no deeper than
there are tokens, so that nothing but brackets stops a building of few tokens.
-/
import Kettle.Proofs.Statement.Deep
import Kettle.Proofs.Tree.Nesting

namespace Kettle.Tree

open Event (halt? chain)

variable {limits : Limits} {ns ms inner rest : List Node} {opener closer n : Node} {depth : Nat}

/-! ## Brackets that are open at once -/

/-- The most brackets that are open at once among some nodes. -/
def bracketDepth : List Node → Nat
  | [] => 0
  | n :: ns =>
    if n.kind.closer?.isSome then bracketDepth ns + 1
    else if n.kind = .rpar ∨ n.kind = .rbrace then bracketDepth ns - 1
    else bracketDepth ns

theorem bracketDepth_le_length (ns : List Node) : bracketDepth ns ≤ ns.length := by
  induction ns with
  | nil => exact Nat.le_refl 0
  | cons n ns ih =>
    rw [bracketDepth, List.length_cons]
    split_ifs <;> omega

theorem bracketDepth_opener (h : opener.kind.closer?.isSome) (ns : List Node) :
    bracketDepth (opener :: ns) = bracketDepth ns + 1 := if_pos h

theorem bracketDepth_closer (h : opener.kind.closer? = some closer.kind) (ns : List Node) :
    bracketDepth (closer :: ns) = bracketDepth ns - 1 := by
  rcases closer?_eq_some h with ⟨-, hk⟩ | ⟨-, hk⟩ <;> simp [bracketDepth, hk, Kind.closer?]

theorem bracketDepth_other (h : n.kind ∉ bracketKinds) (ns : List Node) :
    bracketDepth (n :: ns) = bracketDepth ns := by
  have hclose : ¬ (n.kind = .rpar ∨ n.kind = .rbrace) := by
    rintro (hk | hk) <;> rw [hk] at h <;> exact h (by decide)
  rw [bracketDepth, closer?_of_not_mem h, if_neg (by simp), if_neg hclose]

/-- The depth is a matter of kinds. -/
theorem bracketDepth_map {f : Node → Node} (hf : ∀ n, (f n).kind = n.kind) (ns : List Node) :
    bracketDepth (ns.map f) = bracketDepth ns := by
  induction ns with
  | nil => rfl
  | cons n ns ih => rw [List.map_cons, bracketDepth, bracketDepth, hf, ih]

theorem WellNested.map {f : Node → Node} (hf : ∀ n, (f n).kind = n.kind) (h : WellNested ns) :
    WellNested (ns.map f) := by
  induction h with
  | nil => exact .nil
  | other hn _ ih => exact .other (by rwa [hf]) ih
  | pair hc _ _ ihinner ihrest =>
    rw [List.map_cons, List.map_append, List.map_cons]
    exact .pair (by rw [hf, hf, hc]) ihinner ihrest

/-- Well-nested brackets are closed where others begin. -/
theorem WellNested.bracketDepth_append (h : WellNested ns) (ms : List Node) :
    bracketDepth (ns ++ ms) = max (bracketDepth ns) (bracketDepth ms) := by
  induction h generalizing ms with
  | nil => exact (Nat.zero_max _).symm
  | other hn _ ih => rw [List.cons_append, bracketDepth_other hn, bracketDepth_other hn, ih]
  | @pair opener closer inner rest hc _ _ ihinner ihrest =>
    rw [List.cons_append, List.append_assoc, List.cons_append, bracketDepth_opener (by simp [hc]),
      bracketDepth_opener (by simp [hc]), ihinner, ihinner, bracketDepth_closer hc, bracketDepth_closer hc, ihrest]
    omega

theorem bracketDepth_pair (hc : opener.kind.closer? = some closer.kind) (h : WellNested inner) (rest : List Node) :
    bracketDepth (opener :: (inner ++ closer :: rest)) = max (bracketDepth inner + 1) (bracketDepth rest) := by
  rw [bracketDepth_opener (by simp [hc]), h.bracketDepth_append, bracketDepth_closer hc]
  omega

/-! ## Building -/

theorem group_other {build : Node → List Node → Events Node} (h : n.kind ∉ bracketKinds) (es : Events Node) :
    group build none (.item n :: es) = .item n :: group build none es := by
  rw [group, closer?_of_not_mem h, if_neg (by simp)]

/-- A pair of brackets becomes what is built of what is between them. -/
theorem group_pair {build : Node → List Node → Events Node} (ht : IsToken opener)
    (hc : opener.kind.closer? = some closer.kind) (h : WellNested inner) (hend : ∀ n ∈ inner, n.kind ≠ .eof)
    (es : Events Node) :
    group build none (.item opener :: (inner.map .item ++ .item closer :: es)) =
      chain (build opener inner) (group build none es) := by
  have hopener : (opener.kind.closer?.isSome && !opener.resolved) = true := by
    simp [hc, ht.loose (closer?_brackets hc).1]
  have hcloser : closer.kind ≠ opener.kind := closer?_ne hc (by simp [hc])
  rw [group, if_pos hopener, Pending.start, h.inside hc hend 1 Nat.one_pos, group, if_neg hcloser, if_pos hc.symm,
    if_pos rfl, List.append_nil, List.reverse_reverse]

/-- Well-nested nodes are grouped apart from what comes behind them. -/
theorem WellNested.group_append {build : Node → List Node → Events Node} (h : WellNested ns)
    (ht : ∀ n ∈ ns, IsToken n) (hend : ∀ n ∈ ns, n.kind ≠ .eof) (more : Events Node) :
    group build none (ns.map .item ++ more) = chain (group build none (ns.map .item)) (group build none more) := by
  induction h with
  | nil => rfl
  | @other n ns hn _ ih =>
    rw [List.map_cons, List.cons_append, group_other hn, group_other hn,
      ih (fun m hm => ht m (by simp [hm])) fun m hm => hend m (by simp [hm])]
    rfl
  | @pair opener closer inner rest hc hinner _ _ ihrest =>
    have hopener := ht opener (by simp)
    have hinnerEnd : ∀ m ∈ inner, m.kind ≠ .eof := fun m hm => hend m (by simp [hm])
    rw [List.map_cons, List.cons_append, List.map_append, List.append_assoc, List.map_cons, List.cons_append,
      group_pair hopener hc hinner hinnerEnd, group_pair hopener hc hinner hinnerEnd,
      ihrest (fun m hm => ht m (by simp [hm])) fun m hm => hend m (by simp [hm]), Event.chain_assoc]

theorem halt?_close (opener : Node) (es : Events Node) : halt? (close opener es).events = halt? es := by
  rw [Built.events, Event.halt?_append, Event.halt?_map_report, close, Event.outcome]
  cases halt? es <;> rfl

/-- What is grouped to some events is built of them, with one level of brackets less left for the inside. -/
theorem build_grouped {es : Events Node}
    (hgroup : ∀ depth, bracketDepth inner ≤ depth → ∀ more : Events Node,
      group (fun n ns => (build limits depth n ns).events) none (inner.map .item ++ more) =
        chain es (group (fun n ns => (build limits depth n ns).events) none more))
    (opener : Node) (hdepth : bracketDepth inner < depth) :
    build limits depth opener inner = close opener (statements limits opener.pos.source (chain es [])) := by
  obtain ⟨below, rfl⟩ := Nat.exists_eq_add_of_le' (Nat.one_le_of_lt hdepth)
  have hinside := hgroup below (by omega) []
  rw [List.append_nil, group] at hinside
  rw [build, hinside]

/-- Well-nested nodes are grouped to the same events wherever their brackets may go as deep as they do. -/
theorem WellNested.grouped (limits : Limits) (h : WellNested ns) (ht : ∀ n ∈ ns, IsToken n)
    (hend : ∀ n ∈ ns, n.kind ≠ .eof) :
    ∃ es, ∀ depth, bracketDepth ns ≤ depth → ∀ more : Events Node,
      group (fun n ns => (build limits depth n ns).events) none (ns.map .item ++ more) =
        chain es (group (fun n ns => (build limits depth n ns).events) none more) := by
  induction h with
  | nil => exact ⟨[], fun _ _ _ => rfl⟩
  | @other n ns hn _ ih =>
    obtain ⟨es, hgroup⟩ := ih (fun m hm => ht m (by simp [hm])) fun m hm => hend m (by simp [hm])
    refine ⟨.item n :: es, fun depth hdepth more => ?_⟩
    rw [bracketDepth_other hn] at hdepth
    rw [List.map_cons, List.cons_append, group_other hn, hgroup depth hdepth]
    rfl
  | @pair opener closer inner rest hc hinner _ ihinner ihrest =>
    have hinnerEnd : ∀ m ∈ inner, m.kind ≠ .eof := fun m hm => hend m (by simp [hm])
    obtain ⟨es, hgroup⟩ := ihinner (fun m hm => ht m (by simp [hm])) hinnerEnd
    obtain ⟨es', hgroup'⟩ := ihrest (fun m hm => ht m (by simp [hm])) fun m hm => hend m (by simp [hm])
    refine ⟨chain (close opener (statements limits opener.pos.source (chain es []))).events es',
      fun depth hdepth more => ?_⟩
    rw [bracketDepth_pair hc hinner] at hdepth
    rw [List.map_cons, List.cons_append, List.map_append, List.append_assoc, List.map_cons, List.cons_append,
      group_pair (ht opener (by simp)) hc hinner hinnerEnd, build_grouped hgroup opener (by omega),
      hgroup' _ (by omega), Event.chain_assoc]

/-- A group of well-nested nodes is the same wherever their brackets may go as deep as they do. -/
theorem WellNested.built (limits : Limits) (h : WellNested ns) (ht : ∀ n ∈ ns, IsToken n)
    (hend : ∀ n ∈ ns, n.kind ≠ .eof) (opener : Node) :
    ∃ es, ∀ depth, bracketDepth ns < depth → build limits depth opener ns = close opener es := by
  obtain ⟨es, hgroup⟩ := h.grouped limits ht hend
  exact ⟨_, fun _ hdepth => build_grouped hgroup opener hdepth⟩

/-- Well-nested nodes that are grouped without a stop go no deeper than they may. -/
theorem WellNested.bracketDepth_le (h : WellNested ns) (ht : ∀ n ∈ ns, IsToken n) (hend : ∀ n ∈ ns, n.kind ≠ .eof)
    {more : Events Node}
    (hhalt : halt? (group (fun n ns => (build limits depth n ns).events) none (ns.map .item ++ more)) = none) :
    bracketDepth ns ≤ depth := by
  induction h generalizing depth more with
  | nil => exact Nat.zero_le _
  | @other n ns hn _ ih =>
    rw [List.map_cons, List.cons_append, group_other hn] at hhalt
    rw [bracketDepth_other hn]
    exact ih (fun m hm => ht m (by simp [hm])) (fun m hm => hend m (by simp [hm])) hhalt
  | @pair opener closer inner rest hc hinner _ ihinner ihrest =>
    have hinnerEnd : ∀ m ∈ inner, m.kind ≠ .eof := fun m hm => hend m (by simp [hm])
    rw [List.map_cons, List.cons_append, List.map_append, List.append_assoc, List.map_cons, List.cons_append,
      group_pair (ht opener (by simp)) hc hinner hinnerEnd, Event.halt?_chain, Option.or_eq_none_iff] at hhalt
    have hrest := ihrest (fun m hm => ht m (by simp [hm])) (fun m hm => hend m (by simp [hm])) hhalt.2
    rw [bracketDepth_pair hc hinner]
    cases depth with
    | zero => cases hhalt.1
    | succ below =>
      have hbuild := hhalt.1
      rw [build, halt?_close, ← List.append_nil (inner.map _)] at hbuild
      have hinside := ihinner (fun m hm => ht m (by simp [hm])) hinnerEnd (halt?_statements_eq_none.1 hbuild).1
      omega

/-! ## How deep nodes get -/

open Event (items Items)
open Statement (reach weight reach_into_le)

variable {source : Text} {s : Statement} {es : Events Node}

theorem IsToken.reach_eq (h : IsToken n) : reach n = 1 := by
  obtain ⟨t, rfl⟩ := h
  rw [reach, Statement.expandTree_eq]
  rcases Statement.depth_expandCompound ⟨Node.kindOf t, t.text, [], Node.isOperand (Node.kindOf t), t.pos⟩ with
    hn | ⟨x, y, -, hc, -⟩
  · exact (congrArg Node.depth hn).trans rfl
  · cases hc

theorem weight_chain (es more : Events Node) :
    weight (items (chain es more)) ≤ weight (items es) + weight (items more) := by
  induction es, more using Event.chain_induct with
  | nil more => simp [items]
  | halt e rest more => simp [items]
  | report r rest more ih => exact ih
  | item a rest more ih =>
    simp only [items, Statement.weight_cons]
    omega

/-- Nodes are split into statements that are together no deeper than they are. -/
theorem split_weight (current : List Node) (es : Events Node) :
    ((items (split current es)).map weight).sum ≤ weight current + weight (items es) := by
  have hflush : ∀ current : List Node, ((items (flush current)).map weight).sum = weight current := by
    intro current
    cases current with
    | nil => rfl
    | cons n current => simp [flush, items, weight, List.sum_append, Nat.add_comm]
  induction current, es using split_induct with
  | nil current => exact (hflush current).le.trans (Nat.le_add_right _ _)
  | halt => exact Nat.zero_le _
  | report current r rest ih => exact ih
  | separator current n rest _ ih =>
    rw [Event.items_append, List.map_append, List.sum_append, hflush, items, Statement.weight_cons]
    rw [Statement.weight_nil] at ih
    omega
  | node current n rest _ ih =>
    rw [Statement.weight_cons] at ih
    rw [items, Statement.weight_cons]
    omega

theorem weight_le_of_split (h : Event.item s ∈ split [] es) : weight s ≤ weight (items es) := by
  have hmem : weight s ∈ (items (split [] es)).map weight := List.mem_map_of_mem (Event.mem_items.2 h)
  have hall := split_weight [] es
  rw [Statement.weight_nil, Nat.zero_add] at hall
  exact (List.single_le_sum (by simp) _ hmem).trans hall

/-- The tree of a statement is no deeper than its nodes taken together. -/
theorem settle_weight (limits : Limits) (source : Text) (h : ∀ m ∈ s, m.Delivered) :
    weight (items (settle limits source s)) ≤ weight s := by
  unfold settle
  split
  · exact Nat.zero_le _
  · split
    · rename_i n hok
      have hfinished := Statement.derives_finished s n h ((Statement.check_reduce_eq_ok_iff h).1 hok)
      have hreduce := (Statement.check_eq_ok_iff.1 hok).1
      rw [items, items, Statement.weight_cons, Statement.weight_nil, Nat.add_zero, reach,
        Statement.expandTree_finished hfinished]
      exact Statement.depth_reduce (by simp [hreduce])
    · exact Nat.zero_le _

theorem statements_weight (limits : Limits) (source : Text) (h : Items Node.Delivered es) :
    weight (items (statements limits source es)) ≤ weight (items es) := by
  have heach : ∀ rows : Events Statement, (∀ s, Event.item s ∈ rows → ∀ m ∈ s, m.Delivered) →
      weight (items (Event.each (settle limits source) rows)) ≤ ((items rows).map weight).sum := by
    intro rows hrows
    induction rows with
    | nil => exact Nat.zero_le _
    | cons row rows ih =>
      have hrest := ih fun s hs => hrows s (List.mem_cons_of_mem _ hs)
      cases row with
      | item s =>
        have hfirst := settle_weight limits source (hrows s (by simp))
        have hchain := weight_chain (settle limits source s) (Event.each (settle limits source) rows)
        rw [Event.each, items, List.map_cons, List.sum_cons]
        omega
      | report c => exact hrest
      | halt e => exact Nat.zero_le _
  have hsplit := split_weight [] es
  rw [Statement.weight_nil, Nat.zero_add] at hsplit
  refine (heach _ fun s hs => ?_).trans hsplit
  exact (split_items [] es (by simp) (fun n hn _ => h n hn) s hs).2

/-- Groups are no deeper than there are tokens, if the groups inside them are not. -/
theorem group_weight {build : Node → List Node → Events Node}
    (hb : ∀ o ns, o.kind.closer?.isSome → IsToken o → (∀ n ∈ ns, IsToken n) →
      weight (items (build o ns)) ≤ ns.length + 1)
    (pending : Option Pending) (es : Events Node) (hp : ∀ p ∈ pending, p.Holds IsToken) (hes : Items IsToken es) :
    weight (items (group build pending es)) ≤ Pending.extent pending + (items es).length := by
  have hbuild : ∀ {p : Pending}, p.Holds IsToken →
      weight (items (build p.opener p.inner.reverse)) ≤ p.inner.length + 1 := by
    intro p hp
    rw [← List.length_reverse]
    exact hb _ _ hp.opener hp.token fun n hn => hp.inner n (by simpa using hn)
  have hrest : ∀ {e : Event Complaint Fault Node} {es : Events Node}, Items IsToken (e :: es) → Items IsToken es :=
    fun h n hn => h n (List.mem_cons_of_mem _ hn)
  have hadd : ∀ {p : Pending} {n : Node} {es : Events Node} (depth : Nat), p.Holds IsToken →
      Items IsToken (.item n :: es) → ∀ q ∈ some (⟨p.opener, depth, n :: p.inner⟩ : Pending), q.Holds IsToken := by
    rintro p n es depth hp hes q ⟨⟩
    exact hp.add (hes n (by simp)) depth
  induction pending, es using group_induct build with
  | nil => exact Nat.zero_le _
  | unclosed p => exact hbuild (hp p rfl)
  | halt => exact Nat.zero_le _
  | report pending r rest ih => exact ih hp (hrest hes)
  | opening n rest hn ih =>
    refine (ih ?_ (hrest hes)).trans (le_of_eq ?_)
    · rintro p ⟨⟩
      exact ⟨(Bool.and_eq_true_iff.1 hn).1, hes n (by simp), by simp [Pending.start]⟩
    · simp [Pending.start, items, Nat.add_comm]
  | outside n rest hn ih =>
    have hlater := ih (by simp) (hrest hes)
    have hreach := (hes n (by simp)).reach_eq
    rw [items, Statement.weight_cons, items, List.length_cons]
    omega
  | deeper p n rest _ ih =>
    have hlater := ih (hadd _ (hp p rfl) hes) (hrest hes)
    simp only [Pending.extent_some, items, List.length_cons] at hlater ⊢
    omega
  | closing p n rest _ _ _ ih =>
    have hgroup := hbuild (hp p rfl)
    have hlater := ih (by simp) (hrest hes)
    have hchain := weight_chain (build p.opener p.inner.reverse) (group build none rest)
    simp only [Pending.extent_some, Pending.extent_none, items, List.length_cons] at hlater ⊢
    omega
  | shallower p n rest _ _ _ ih =>
    have hlater := ih (hadd _ (hp p rfl) hes) (hrest hes)
    simp only [Pending.extent_some, items, List.length_cons] at hlater ⊢
    omega
  | ending p n rest _ _ _ ih =>
    have hgroup := hbuild (hp p rfl)
    have hlater := ih (by simp) (hrest hes)
    have hchain := weight_chain (.report p.unclosed :: build p.opener p.inner.reverse) (group build none rest)
    simp only [Pending.extent_some, Pending.extent_none, items, List.length_cons] at hlater hchain ⊢
    omega
  | inside p n rest _ _ _ ih =>
    have hlater := ih (hadd _ (hp p rfl) hes) (hrest hes)
    simp only [Pending.extent_some, Pending.push, items, List.length_cons] at hlater ⊢
    omega

/-- At every level of brackets, a group is no deeper than there are tokens in it, with the bracket that opens it. -/
theorem build_weight (limits : Limits) : ∀ (depth : Nat) (opener : Node) (inner : List Node),
    opener.kind.closer?.isSome → IsToken opener → (∀ n ∈ inner, IsToken n) →
      weight (items (build limits depth opener inner).events) ≤ inner.length + 1
  | 0, _, _, _, _, _ => Nat.zero_le _
  | depth + 1, opener, inner, ho, _, hi => by
    have hitems : Items IsToken (inner.map .item : Events Node) := .map_item hi
    have hgroup := group_weight (build_weight limits depth) none _ (by simp) hitems
    rw [Event.items_map_item, Pending.extent_none, Nat.zero_add] at hgroup
    have hstatements := (statements_weight limits opener.pos.source (grouped_delivered depth hitems)).trans hgroup
    cases hresult : (build limits (depth + 1) opener inner).result with
    | error e =>
      rw [Built.events, hresult, Event.items_append, Event.items_map_report]
      exact Nat.zero_le _
    | ok n =>
      rw [Built.events, hresult, Event.items_append, Event.items_map_report]
      have hn := close_eq_ok hresult
      have hreach : reach n ≤ _ := hn ▸ reach_into_le opener opener.kind opener.text _
      simp only [List.nil_append, items, Statement.weight_cons, Statement.weight_nil]
      omega

/-- Where no more tokens are at one level of brackets than nodes may be inside one another, the statements among them
stop nothing. -/
theorem halt?_statements_few (depth : Nat) (hes : Items IsToken es) (h : (items es).length ≤ limits.nodes) :
    halt? (statements limits source (group (fun n ns => (build limits depth n ns).events) none es)) =
      halt? (group (fun n ns => (build limits depth n ns).events) none es) := by
  refine halt?_statements_of_shallow fun s hs => ?_
  have hgroup := group_weight (build_weight limits depth) none es (by simp) hes
  rw [Pending.extent_none, Nat.zero_add] at hgroup
  by_contra hdeep
  have hweight := Statement.lt_weight_of_exhausts (by simpa using hdeep)
  have hsplit := weight_le_of_split hs
  omega

/-- A group of few tokens is stopped by brackets only. -/
theorem halt?_build_succ (hi : ∀ n ∈ inner, IsToken n) (h : inner.length ≤ limits.nodes) (opener : Node) :
    halt? (build limits (depth + 1) opener inner).events =
      halt? (group (fun n ns => (build limits depth n ns).events) none (inner.map .item)) := by
  rw [build, halt?_close, halt?_statements_few depth (.map_item hi) (by rwa [Event.items_map_item])]

/-! ## Where few tokens are, and where brackets go too deep -/

/-- Where nothing stops the building of any group, nothing but its events stops the grouping. The groups are of nodes
that are grouped, and the bracket that opens one is not inside it. -/
theorem halt?_group_of_sublist {build : Node → List Node → Events Node} (pending : Option Pending) (es : Events Node)
    (hb : ∀ o ns, (o :: ns).Sublist (Pending.held pending ++ items es) → halt? (build o ns) = none) :
    halt? (group build pending es) = halt? es := by
  have hgroup : ∀ {p : Pending} {ns : List Node},
      (p.opener :: p.inner.reverse).Sublist (Pending.held (some p) ++ ns) := List.sublist_append_left _ _
  -- a node that is set aside stays in its place
  have hpush : ∀ (p : Pending) (depth : Nat) (n : Node) (rest : Events Node),
      Pending.held (some ⟨p.opener, depth, n :: p.inner⟩) ++ items rest =
        Pending.held (some p) ++ items (.item n :: rest) := by
    intro p depth n rest
    simp [Pending.held, items]
  have hrest : ∀ {pending : Option Pending} {n : Node} {rest : Events Node},
      (Pending.held none ++ items rest).Sublist (Pending.held pending ++ items (.item n :: rest)) :=
    (List.sublist_cons_self ..).trans (List.sublist_append_right ..)
  induction pending, es using group_induct build with
  | nil => rfl
  | unclosed p => exact hb _ _ hgroup
  | halt => rfl
  | report pending r rest ih => exact ih hb
  | opening n rest _ ih => exact ih hb
  | outside n rest _ ih => exact ih fun o ns h => hb o ns (h.trans hrest)
  | deeper p n rest _ ih => exact ih fun o ns h => hb o ns (hpush .. ▸ h)
  | closing p n rest _ _ _ ih =>
    rw [Event.halt?_chain, hb _ _ hgroup]
    exact ih fun o ns h => hb o ns (h.trans hrest)
  | shallower p n rest _ _ _ ih => exact ih fun o ns h => hb o ns (hpush .. ▸ h)
  | ending p n rest _ _ _ ih =>
    have hclosed : halt? (.report p.unclosed :: build p.opener p.inner.reverse) = none := hb _ _ hgroup
    rw [Event.halt?_chain, hclosed]
    exact ih fun o ns h => hb o ns (h.trans hrest)
  | inside p n rest _ _ _ ih => exact ih fun o ns h => hb o ns (hpush .. ▸ h)

/-- Nothing stops the building of fewer tokens than either limit. -/
theorem halt?_build_few : ∀ (depth : Nat) (opener : Node) (inner : List Node), (∀ n ∈ inner, IsToken n) →
    inner.length < depth → inner.length ≤ limits.nodes → halt? (build limits depth opener inner).events = none
  | 0, _, _, _, h, _ => absurd h (Nat.not_lt_zero _)
  | depth + 1, opener, inner, hi, h, hnodes => by
    rw [halt?_build_succ hi hnodes, halt?_group_of_sublist, Event.halt?_map_item]
    intro o ns hsub
    rw [Event.items_map_item] at hsub
    have hlength := hsub.length_le
    rw [List.length_cons] at hlength
    refine halt?_build_few depth o ns (fun n hn => hi n (hsub.subset (List.mem_cons_of_mem _ hn))) ?_ ?_
    · show ns.length < depth
      simp only [Pending.held, List.nil_append] at hlength
      omega
    · simp only [Pending.held, List.nil_append] at hlength
      omega

/-- Few well-nested tokens that do not go too deep stop nothing. -/
theorem WellNested.halt?_shallow (h : WellNested ns) (ht : ∀ n ∈ ns, IsToken n) (hend : ∀ n ∈ ns, n.kind ≠ .eof)
    (hfew : ns.length ≤ limits.nodes) (hdepth : bracketDepth ns ≤ depth) :
    halt? (group (fun n ns => (build limits depth n ns).events) none (ns.map .item)) = none := by
  induction h generalizing depth with
  | nil => rfl
  | @other n ns hn _ ih =>
    rw [bracketDepth_other hn] at hdepth
    rw [List.length_cons] at hfew
    rw [List.map_cons, group_other hn]
    exact ih (fun m hm => ht m (by simp [hm])) (fun m hm => hend m (by simp [hm])) (by omega) hdepth
  | @pair opener closer inner rest hc hinner _ ihinner ihrest =>
    have hinnerEnd : ∀ m ∈ inner, m.kind ≠ .eof := fun m hm => hend m (by simp [hm])
    have hinnerTokens : ∀ m ∈ inner, IsToken m := fun m hm => ht m (by simp [hm])
    rw [bracketDepth_pair hc hinner] at hdepth
    simp only [List.length_cons, List.length_append] at hfew
    obtain ⟨below, rfl⟩ := Nat.exists_eq_add_of_le' (show 1 ≤ depth by omega)
    rw [List.map_cons, List.map_append, List.map_cons, group_pair (ht opener (by simp)) hc hinner hinnerEnd,
      Event.halt?_chain, halt?_build_succ hinnerTokens (by omega), ihinner hinnerTokens hinnerEnd (by omega) (by omega)]
    exact ihrest (fun m hm => ht m (by simp [hm])) (fun m hm => hend m (by simp [hm])) (by omega) (by omega)

/-- Well-nested brackets that go too deep stop the building, whatever comes behind them. -/
theorem WellNested.halt?_deep (limits : Limits) (h : WellNested ns) (ht : ∀ n ∈ ns, IsToken n)
    (hend : ∀ n ∈ ns, n.kind ≠ .eof) (hsource : ∀ n ∈ ns, Within source n) (hdeep : depth < bracketDepth ns)
    (more : Events Node) : halt? (group (fun n ns => (build limits depth n ns).events) none (ns.map .item ++ more)) =
      some (tooDeep source) := by
  rw [h.group_append ht hend, Event.halt?_chain]
  cases hhalt : halt? (group (fun n ns => (build limits depth n ns).events) none (ns.map .item)) with
  | none =>
    rw [← List.append_nil (ns.map _)] at hhalt
    exact absurd (h.bracketDepth_le ht hend hhalt) (Nat.not_le.2 hdeep)
  | some e =>
    obtain rfl : e = tooDeep source :=
      group_halts (T := Within source) (P := fun e => e = tooDeep source)
        (fun o ns ho hns e he => build_error ho hns (Built.halt_mem_events he)) (.map_item hsource) (by simp) hhalt
    rfl

end Kettle.Tree

namespace Kettle

/-! ## Brackets inside one another -/

/-- Runes that are tokens by themselves, one after the other. -/
theorem Scan.scanFrom_replicate (source : Text) {r : Rune} {kind : Kind} (hr : (r, kind) ∈ Lexeme.singles)
    (hlone : ∀ rest, Lexeme.Lone r rest) (rest : Text) (n : Nat) (c : Cursor) (last : Option Kind) :
    ∃ c' last' ts, ts.map Token.kind = List.replicate n kind ∧
      scanFrom source c last (List.replicate n r ++ rest) = (scanFrom source c' last' rest).prepend ts := by
  induction n generalizing c last with
  | zero => exact ⟨c, last, [], rfl, rfl⟩
  | succ n ih =>
    have hspace : Lexeme.isSpace r = false := (Lexeme.Spells.single hr).isSpace_head
    obtain ⟨c', last', ts, hts, hscan⟩ := ih (c.advance [r]) (if kind.isComment then last else some kind)
    refine ⟨c', last', ⟨kind, [r], c.position source⟩ :: ts, by rw [List.map_cons, hts]; rfl, ?_⟩
    rw [List.replicate_succ, List.cons_append, scanFrom_lexeme hspace (Lexeme.read_single hr (hlone _)), hscan]
    rfl

namespace Tree

theorem map_kind_tokenNodes {ts : List Token} {kind : Kind} {n : Nat} (hcomment : kind.isComment = false)
    (hident : kind ≠ .ident) (h : ts.map Token.kind = List.replicate n kind) :
    (tokenNodes ts).map Node.kind = List.replicate n kind := by
  have hkind : ∀ t ∈ ts, t.kind = kind := fun t ht =>
    List.eq_of_mem_replicate (h ▸ List.mem_map_of_mem ht : t.kind ∈ List.replicate n kind)
  have hfilter : (ts.filter fun t => !t.kind.isComment) = ts :=
    List.filter_eq_self.2 fun t ht => by simp [hkind t ht, hcomment]
  rw [tokenNodes, hfilter, List.map_map, ← h]
  refine List.map_congr_left fun t ht => ?_
  show Node.kindOf t = t.kind
  rw [Node.kindOf, if_neg (by rwa [hkind t ht])]

/-- As many closing brackets as opening ones are as deep as they are many. -/
theorem wellNested_replicate {opener closer : Kind} (hc : opener.closer? = some closer) (n : Nat) {os cs : List Node}
    (ho : os.map Node.kind = List.replicate n opener) (hcs : cs.map Node.kind = List.replicate n closer) :
    WellNested (os ++ cs) ∧ bracketDepth (os ++ cs) = n := by
  induction n generalizing os cs with
  | zero =>
    obtain rfl := List.map_eq_nil_iff.1 ho
    obtain rfl := List.map_eq_nil_iff.1 hcs
    exact ⟨.nil, rfl⟩
  | succ n ih =>
    rw [List.replicate_succ] at ho
    rw [List.replicate_succ'] at hcs
    obtain ⟨o, os, rfl, rfl, ho⟩ := List.map_eq_cons_iff.1 ho
    obtain ⟨inner, last, rfl, hinner, hlast⟩ := List.map_eq_append_iff.1 hcs
    obtain ⟨c, rfl, rfl⟩ := List.map_eq_singleton_iff.1 hlast
    obtain ⟨hnested, hdepth⟩ := ih ho hinner
    rw [List.cons_append, ← List.append_assoc]
    refine ⟨.pair hc hnested .nil, ?_⟩
    rw [bracketDepth_pair hc hnested, hdepth]
    exact Nat.max_eq_left (Nat.zero_le _)

/-- The text of parentheses inside one another, and of what comes behind them. -/
def parens (n : Nat) (rest : Text) : Text := List.replicate n ('(' : Rune) ++ (List.replicate n (')' : Rune) ++ rest)

/-- Parentheses inside one another are scanned to well-nested nodes that are as deep. -/
theorem scan_parens (source : Text) (n : Nat) (rest : Text) : ∃ c last ts,
    scan source (parens n rest) = (Scan.scanFrom source c last rest).prepend ts ∧ WellNested (tokenNodes ts) ∧
      bracketDepth (tokenNodes ts) = n ∧ (tokenNodes ts).length = n + n := by
  have hlone : ∀ r : Rune, (∀ d ∈ Lexeme.doubles, d.1.1 ≠ r) → r ≠ '/' → ∀ rest, Lexeme.Lone r rest :=
    fun r hdoubles hslash _ _ _ => ⟨fun _ hop => hdoubles _ hop rfl, fun h => hslash h.1⟩
  have hlpar : (('(' : Rune), Kind.lpar) ∈ Lexeme.singles := by decide
  have hrpar : ((')' : Rune), Kind.rpar) ∈ Lexeme.singles := by decide
  obtain ⟨c, last, os, hos, hopen⟩ := Scan.scanFrom_replicate source hlpar
    (hlone ('(' : Rune) (by decide) (by decide)) (List.replicate n (')' : Rune) ++ rest) n .start none
  obtain ⟨c', last', cs, hcs, hclose⟩ := Scan.scanFrom_replicate source hrpar
    (hlone (')' : Rune) (by decide) (by decide)) rest n c last
  have ho := map_kind_tokenNodes rfl (by decide) hos
  have hc := map_kind_tokenNodes rfl (by decide) hcs
  obtain ⟨hnested, hdepth⟩ := wellNested_replicate (show Kind.lpar.closer? = some .rpar from rfl) n ho hc
  refine ⟨c', last', os ++ cs, ?_, ?_, ?_, ?_⟩
  · rw [scan, parens, hopen, hclose]
    simp [Scan.prepend]
  · rwa [tokenNodes_append]
  · rwa [tokenNodes_append]
  · have hlength := congrArg List.length ho
    have hlength' := congrArg List.length hc
    simp only [List.length_map, List.length_replicate] at hlength hlength'
    rw [tokenNodes_append, List.length_append, hlength, hlength']

end Tree

end Kettle
