/-
Grouping and nesting. Grouping counts brackets of one sort and takes those of the other sort for ordinary nodes,
until it comes to the inside of a group. If it is done at every level, then it complains about an open bracket or
leaves a closing one over exactly where the brackets are not well nested; and where they are, it finds the pairs
that a matcher with one stack finds.
-/
import Kettle.Proofs.Tree.Halt
import Kettle.Proofs.Tree.Spelling

namespace Kettle.Tree

open Event (items reports halt?)

variable {k k' c : Kind} {ns : List Node} {n : Node}

/-! ## Brackets -/

theorem closer?_eq_some (h : k.closer? = some c) : k = .lpar ∧ c = .rpar ∨ k = .lbrace ∧ c = .rbrace := by
  cases k <;> simp [Kind.closer?] at h <;> simp [h]

theorem closer?_brackets (h : k.closer? = some c) : k ∈ bracketKinds ∧ c ∈ bracketKinds := by
  rcases closer?_eq_some h with ⟨rfl, rfl⟩ | ⟨rfl, rfl⟩ <;> decide

/-- What closes a bracket opens none. -/
theorem closer?_ne (h : k.closer? = some c) (h' : k'.closer?.isSome) : c ≠ k' := by
  rintro rfl
  rcases closer?_eq_some h with ⟨-, rfl⟩ | ⟨-, rfl⟩ <;> cases h'

/-- A bracket closes brackets of one sort only. -/
theorem closer?_inj (h : k.closer? = some c) (h' : k'.closer? = some c) : k = k' := by
  rcases closer?_eq_some h with ⟨rfl, rfl⟩ | ⟨rfl, rfl⟩
  · rcases closer?_eq_some h' with ⟨rfl, -⟩ | ⟨-, hc⟩
    · rfl
    · cases hc
  · rcases closer?_eq_some h' with ⟨-, hc⟩ | ⟨rfl, -⟩
    · cases hc
    · rfl

theorem bracketKinds_facts : ∀ k ∈ bracketKinds, k ≠ .ident ∧ k.isComment = false := by decide

/-- A node that opens no bracket and closes none is no bracket. -/
theorem not_mem_bracketKinds (hopen : k.closer?.isSome = false) (hclose : k ≠ .rpar ∧ k ≠ .rbrace) :
    k ∉ bracketKinds := by
  revert hopen hclose
  cases k <;> decide

theorem closer?_of_not_mem (h : k ∉ bracketKinds) : k.closer? = none := by
  cases hk : k.closer? with
  | none => rfl
  | some c => exact absurd (closer?_brackets hk).1 h

theorem IsToken.loose (h : IsToken n) (hk : n.kind ∈ bracketKinds) : n.resolved = false := by
  obtain ⟨t, rfl⟩ := h
  show Node.isOperand (Node.ofToken t).kind = false
  revert hk
  cases (Node.ofToken t).kind <;> decide

/-! ## Grouping at every level -/

/-- Groups the brackets of some nodes, and those inside every group. What is inside a group is shorter than what
it is taken from, so that the bound is always kept. -/
def nested (ns : List Node) : Events Node :=
  group (fun opener inner => if inner.length < ns.length then (close opener (nested inner)).events else []) none
    (ns.map .item)
termination_by ns.length

/-- What a group is made of, once the brackets inside it are grouped. -/
def inward (opener : Node) (inner : List Node) : Events Node := (close opener (nested inner)).events

/-- How many nodes are set aside while a bracket is open, the bracket itself included. -/
def Pending.extent (pending : Option Pending) : Nat := (pending.map fun p => p.inner.length + 1).getD 0

@[simp] theorem Pending.extent_none : extent none = 0 := rfl

@[simp] theorem Pending.extent_some (p : Pending) : extent (some p) = p.inner.length + 1 := rfl

/-- Grouping builds brackets of shorter lists only. -/
theorem group_congr {build build' : Node → List Node → Events Node} {bound : Nat}
    (h : ∀ o inner, inner.length < bound → build o inner = build' o inner) (pending : Option Pending) (es : Events Node)
    (hextent : Pending.extent pending + es.length ≤ bound) : group build pending es = group build' pending es := by
  have hbuild : ∀ {p : Pending} {m : Nat}, Pending.extent (some p) + m ≤ bound →
      build p.opener p.inner.reverse = build' p.opener p.inner.reverse := by
    intro p m hp
    rw [Pending.extent_some] at hp
    exact h _ _ (by rw [List.length_reverse]; omega)
  induction pending, es using group_induct build with
  | nil => rfl
  | unclosed p => rw [group, hbuild hextent]
  | halt pending e rest => cases pending <;> rfl
  | report pending r rest ih =>
    rw [List.length_cons] at hextent
    rw [ih (by omega)]
    cases pending <;> rfl
  | opening n rest hn ih =>
    rw [group, if_pos hn, ih (by simpa [Pending.start, Nat.add_comm] using hextent)]
  | outside n rest hn ih =>
    rw [List.length_cons] at hextent
    rw [group, if_neg hn, ih (by omega)]
  | deeper p n rest hn ih =>
    simp only [Pending.extent_some, List.length_cons] at hextent
    rw [group, if_pos hn, ih (by simp only [Pending.extent_some, List.length_cons]; omega)]
  | closing p n rest hn hclose hone ih =>
    rw [group, if_neg hn, if_pos hclose, if_pos hone, hbuild hextent]
    simp only [Pending.extent_some, List.length_cons] at hextent
    rw [ih (by simp only [Pending.extent_none]; omega)]
  | shallower p n rest hn hclose hone ih =>
    simp only [Pending.extent_some, List.length_cons] at hextent
    rw [group, if_neg hn, if_pos hclose, if_neg hone, ih (by simp only [Pending.extent_some, List.length_cons]; omega)]
  | ending p n rest hn hclose heof ih =>
    rw [group, if_neg hn, if_neg hclose, if_pos heof, hbuild hextent]
    simp only [Pending.extent_some, List.length_cons] at hextent
    rw [ih (by simp only [Pending.extent_none]; omega)]
  | inside p n rest hn hclose heof ih =>
    simp only [Pending.extent_some, List.length_cons] at hextent
    rw [group, if_neg hn, if_neg hclose, if_neg heof,
      ih (by simp only [Pending.push, Pending.extent_some, List.length_cons]; omega)]

theorem nested_eq (ns : List Node) : nested ns = group inward none (ns.map .item) := by
  have hlength : Pending.extent none + (ns.map .item : Events Node).length ≤ ns.length := by simp
  rw [nested]
  refine group_congr (fun o inner hlt => ?_) none _ hlength
  rw [if_pos hlt, inward]

/-- Grouping at every level never stops. -/
theorem halt?_nested (ns : List Node) : halt? (nested ns) = none := by
  cases hhalt : halt? (nested ns) with
  | none => rfl
  | some e =>
    rw [nested] at hhalt
    refine (group_halts (T := fun _ => True) (P := fun _ => False) ?_ (fun _ _ => trivial) (by simp) hhalt).elim
    intro o inner _ _ e he
    split at he
    · have hinner := halt?_nested inner
      rw [close_eq_error (Built.halt_mem_events he)] at hinner
      cases hinner
    · simp at he
termination_by ns.length

/-- What is inside a group comes before the group, as complaints, and in it, as nodes. -/
theorem inward_eq (opener : Node) (inner : List Node) : inward opener inner =
    (reports (nested inner)).map .report ++ [.item (opener.into opener.kind opener.text (items (nested inner)))] := by
  rw [inward, Built.events, close, Event.outcome, halt?_nested]
  rfl

/-! ## Well-nested brackets -/

/-- Every bracket is closed by one of its own sort, and what is between the two is well nested. -/
inductive WellNested : List Node → Prop where
  | nil : WellNested []
  | other {n : Node} {ns : List Node} (hn : n.kind ∉ bracketKinds) (h : WellNested ns) : WellNested (n :: ns)
  | pair {opener closer : Node} {inner rest : List Node} (hc : opener.kind.closer? = some closer.kind)
      (hinner : WellNested inner) (hrest : WellNested rest) : WellNested (opener :: (inner ++ closer :: rest))

/-- Where a matcher with one stack stands: the open brackets, each with the nodes before it, the innermost first, and
the nodes since the innermost one, the last one first. -/
structure Stack where
  brackets : List (Node × List Node)
  current : List Node

/-- One more node: an opening bracket is put on the stack, and a closing one takes its partner off it. -/
def Stack.take (s : Stack) (n : Node) : Option Stack :=
  if n.kind.closer?.isSome then some ⟨(n, s.current) :: s.brackets, []⟩
  else if n.kind = .rpar ∨ n.kind = .rbrace then
    match s.brackets with
    | [] => none
    | (opener, before) :: brackets =>
      if opener.kind.closer? = some n.kind then
        some ⟨brackets, opener.into opener.kind opener.text s.current.reverse :: before⟩
      else none
  else some ⟨s.brackets, n :: s.current⟩

/-- The groups of matching brackets, if all brackets match. -/
def matchBrackets (ns : List Node) : Option (List Node) :=
  (ns.foldlM Stack.take ⟨[], []⟩).bind fun s => if s.brackets.isEmpty then some s.current.reverse else none

/-- What an open bracket takes in: well-nested nodes are all set aside, whatever is closed among them. -/
theorem WellNested.inside {build : Node → List Node → Events Node} {opener : Node} (h : WellNested ns)
    (ho : opener.kind.closer? = some c) (hend : ∀ n ∈ ns, n.kind ≠ .eof) (depth : Nat) (hd : 0 < depth)
    (held : List Node) (rest : Events Node) :
    group build (some ⟨opener, depth, held⟩) (ns.map .item ++ rest) =
      group build (some ⟨opener, depth, ns.reverse ++ held⟩) rest := by
  -- a node that is no bracket of the open sort is set aside
  have hpush : ∀ {n : Node} (depth : Nat) (held : List Node) (rest : Events Node), n.kind ≠ opener.kind →
      opener.kind.closer? ≠ some n.kind → n.kind ≠ .eof →
      group build (some ⟨opener, depth, held⟩) (.item n :: rest) =
        group build (some ⟨opener, depth, n :: held⟩) rest := by
    intro n depth held rest hn hclose heof
    rw [group, if_neg hn, if_neg (Ne.symm hclose), if_neg heof]
    rfl
  induction h generalizing depth held rest with
  | nil => rfl
  | @other n ns hn _ ih =>
    have hopening : n.kind ≠ opener.kind := fun heq => hn (heq ▸ (closer?_brackets ho).1)
    have hclosing : opener.kind.closer? ≠ some n.kind := fun heq => hn (closer?_brackets heq).2
    rw [List.map_cons, List.cons_append, hpush _ _ _ hopening hclosing (hend n (by simp)),
      ih (fun m hm => hend m (by simp [hm])) depth hd]
    simp
  | @pair o closer inner more hc _ _ ihinner ih =>
    have hinner := ihinner fun m hm => hend m (by simp [hm])
    have hmore := ih fun m hm => hend m (by simp [hm])
    have hother : closer.kind ≠ opener.kind := closer?_ne hc (by simp [ho])
    have hlist : (o :: (inner ++ closer :: more)).reverse ++ held =
        more.reverse ++ closer :: (inner.reverse ++ o :: held) := by simp
    rw [hlist, List.map_cons, List.cons_append, List.map_append, List.map_cons, List.append_assoc, List.cons_append]
    by_cases hsame : o.kind = opener.kind
    · -- a bracket of the same sort is counted, and does not close the open one
      rw [group, if_pos hsame, hinner _ (Nat.succ_pos _), group, if_neg hother, if_pos (by rw [← hsame, hc]),
        if_neg (by simp only; omega)]
      exact hmore depth hd _ rest
    · -- a bracket of the other sort is set aside like other nodes
      have hopening : opener.kind.closer? ≠ some o.kind := fun heq => closer?_ne heq (by simp [hc]) rfl
      have hclosing : opener.kind.closer? ≠ some closer.kind := fun heq => hsame (closer?_inj hc heq)
      rw [hpush _ _ _ hsame hopening (hend o (by simp)), hinner depth hd,
        hpush _ _ _ hother hclosing (hend closer (by simp))]
      exact hmore depth hd _ rest

theorem WellNested.append {ms : List Node} (h : WellNested ns) (hms : WellNested ms) : WellNested (ns ++ ms) := by
  induction h with
  | nil => exact hms
  | other hn _ ih => exact .other hn ih
  | @pair opener closer inner rest hc hinner _ _ ih =>
    rw [List.cons_append, List.append_assoc, List.cons_append]
    exact .pair hc hinner ih

/-! ## Well-nested brackets are grouped as they match -/

/-- What well-nested nodes are grouped into, by grouping at every level and by the matcher alike, whatever comes
before and after them. -/
structure Groups (ns forest : List Node) : Prop where
  grouped : ∀ rest : Events Node, group inward none (ns.map .item ++ rest) = forest.map .item ++ group inward none rest
  matched : ∀ s : Stack, ns.foldlM Stack.take s = some ⟨s.brackets, forest.reverse ++ s.current⟩
  closed : ∀ m ∈ Node.preorderAll forest, m.kind ≠ .rpar ∧ m.kind ≠ .rbrace

namespace Groups

variable {forest inner forest' rest : List Node} {opener closer : Node}

theorem nested_eq (h : Groups ns forest) : nested ns = forest.map .item := by
  have hgrouped := h.grouped []
  rwa [List.append_nil, ← Tree.nested_eq, group, List.append_nil] at hgrouped

theorem nil : Groups [] [] :=
  ⟨fun _ => rfl, fun _ => rfl, by simp [Node.preorderAll]⟩

theorem other (ht : IsToken n) (hn : n.kind ∉ bracketKinds) (h : Groups ns forest) :
    Groups (n :: ns) (n :: forest) := by
  have hopen : n.kind.closer? = none := closer?_of_not_mem hn
  have hclose : n.kind ≠ .rpar ∧ n.kind ≠ .rbrace := by
    constructor <;> (intro hk; rw [hk] at hn; exact hn (by decide))
  refine ⟨fun rest => ?_, fun s => ?_, fun m hm => ?_⟩
  · rw [List.map_cons, List.cons_append, group, if_neg (by simp [hopen]), h.grouped]
    rfl
  · have htake : s.take n = some ⟨s.brackets, n :: s.current⟩ := by simp [Stack.take, hopen, hclose]
    rw [List.foldlM_cons, htake]
    simp [h.matched]
  · obtain ⟨t, rfl⟩ := ht
    rw [Node.preorderAll, List.mem_append] at hm
    rcases hm with hm | hm
    · obtain rfl : m = Node.ofToken t := by simpa [Node.ofToken, Node.preorder, Node.preorderAll] using hm
      exact hclose
    · exact h.closed m hm

/-- A pair of brackets becomes a group of what is between them. -/
theorem pair (ht : IsToken opener) (hc : opener.kind.closer? = some closer.kind) (hwell : WellNested inner)
    (hend : ∀ n ∈ inner, n.kind ≠ .eof) (hinner : Groups inner forest) (hrest : Groups rest forest') :
    Groups (opener :: (inner ++ closer :: rest)) (opener.into opener.kind opener.text forest :: forest') := by
  have hopener : (opener.kind.closer?.isSome && !opener.resolved) = true := by
    simp [hc, ht.loose (closer?_brackets hc).1]
  have hcloser : closer.kind ≠ opener.kind := closer?_ne hc (by simp [hc])
  have hbuild : inward opener inner = [.item (opener.into opener.kind opener.text forest)] := by
    rw [inward, hinner.nested_eq, close_items]
    rfl
  refine ⟨fun more => ?_, fun s => ?_, fun m hm => ?_⟩
  · rw [List.map_cons, List.cons_append, List.map_append, List.map_cons, List.append_assoc, List.cons_append, group,
      if_pos hopener, Pending.start, hwell.inside hc hend 1 Nat.one_pos, group, if_neg hcloser, if_pos hc.symm,
      if_pos rfl, List.append_nil, List.reverse_reverse, hbuild, hrest.grouped]
    rfl
  · have hclosing : closer.kind = .rpar ∨ closer.kind = .rbrace :=
      (closer?_eq_some hc).imp And.right And.right
    have hnone : closer.kind.closer? = none := by
      rcases hclosing with hk | hk <;> rw [hk] <;> rfl
    have hopening : s.take opener = some ⟨(opener, s.current) :: s.brackets, []⟩ := by simp [Stack.take, hc]
    have hclosed : Stack.take ⟨(opener, s.current) :: s.brackets, forest.reverse⟩ closer =
        some ⟨s.brackets, opener.into opener.kind opener.text forest :: s.current⟩ := by
      simp [Stack.take, hnone, hclosing, hc]
    rw [List.foldlM_cons, hopening]
    simp [List.foldlM_append, hinner.matched, hclosed, hrest.matched]
  · rw [Node.preorderAll, List.mem_append] at hm
    rcases hm with hm | hm
    · rw [Node.into, Node.preorder, List.mem_cons] at hm
      rcases hm with rfl | hm
      · -- the group itself is of the kind of the bracket that opens it
        rcases closer?_eq_some hc with ⟨hk, -⟩ | ⟨hk, -⟩ <;> simp [hk]
      · exact hinner.closed m hm
    · exact hrest.closed m hm

end Groups

/-- Well-nested nodes have groups, if the end of the source comes last. -/
theorem WellNested.groups (h : WellNested ns) (ht : ∀ n ∈ ns, IsToken n) (hend : ∀ n ∈ ns.dropLast, n.kind ≠ .eof) :
    ∃ forest, Groups ns forest := by
  induction h with
  | nil => exact ⟨[], .nil⟩
  | @other n ns hn _ ih =>
    have hdrop : ∀ m ∈ ns.dropLast, m ∈ (n :: ns).dropLast := by
      intro m hm
      have hne : ns ≠ [] := by rintro rfl; simp at hm
      rw [List.dropLast_cons_of_ne_nil hne]
      exact List.mem_cons_of_mem _ hm
    obtain ⟨forest, hforest⟩ := ih (fun m hm => ht m (by simp [hm])) fun m hm => hend m (hdrop m hm)
    exact ⟨n :: forest, hforest.other (ht n (by simp)) hn⟩
  | @pair opener closer inner rest hc hinner _ ihinner ihrest =>
    have hdrop : (opener :: (inner ++ closer :: rest)).dropLast = opener :: (inner ++ (closer :: rest).dropLast) := by
      rw [List.dropLast_cons_of_ne_nil (by simp), List.dropLast_append_of_ne_nil (by simp)]
    rw [hdrop] at hend
    have hinside : ∀ m ∈ inner, m.kind ≠ .eof := fun m hm => hend m (by simp [hm])
    obtain ⟨forest, hforest⟩ := ihinner (fun m hm => ht m (by simp [hm])) fun m hm =>
      hinside m (List.dropLast_subset _ hm)
    obtain ⟨forest', hforest'⟩ := ihrest (fun m hm => ht m (by simp [hm])) fun m hm => by
      have hne : rest ≠ [] := by rintro rfl; simp at hm
      exact hend m (by simp [List.dropLast_cons_of_ne_nil hne, hm])
    exact ⟨_, hforest.pair (ht opener (by simp)) hc hinner hinside hforest'⟩

/-! ## What is grouped without complaint is well nested -/

/-- What becomes of an open bracket: either a closing bracket of its sort ends it, or it is never closed. -/
theorem group_pending {build : Node → List Node → Events Node} (p : Pending) (hp : p.opener.kind.closer? = some c)
    (ns : List Node) :
    (∃ inner closer rest, ns = inner ++ closer :: rest ∧ closer.kind = c ∧
      group build (some p) (ns.map .item) =
        Event.chain (build p.opener (p.inner.reverse ++ inner)) (group build none (rest.map .item))) ∨
    ∃ es, group build (some p) (ns.map .item) = .report p.unclosed :: es := by
  induction ns generalizing p with
  | nil => exact .inr ⟨_, rfl⟩
  | cons n ns ih =>
    -- the node is set aside, and the bracket stays open
    have hset : ∀ depth, group build (some p) ((n :: ns).map .item) =
        group build (some ⟨p.opener, depth, n :: p.inner⟩) (ns.map .item) →
        (∃ inner closer rest, n :: ns = inner ++ closer :: rest ∧ closer.kind = c ∧
          group build (some p) ((n :: ns).map .item) =
            Event.chain (build p.opener (p.inner.reverse ++ inner)) (group build none (rest.map .item))) ∨
        ∃ es, group build (some p) ((n :: ns).map .item) = .report p.unclosed :: es := by
      intro depth hstep
      rw [hstep]
      rcases ih ⟨p.opener, depth, n :: p.inner⟩ hp with ⟨inner, closer, rest, rfl, hc, heq⟩ | ⟨es, heq⟩
      · exact .inl ⟨n :: inner, closer, rest, rfl, hc, by simpa using heq⟩
      · exact .inr ⟨es, heq⟩
    by_cases hn : n.kind = p.opener.kind
    · exact hset _ (by rw [List.map_cons, group, if_pos hn])
    · by_cases hclose : some n.kind = p.opener.kind.closer?
      · by_cases hone : p.depth = 1
        · refine .inl ⟨[], n, ns, rfl, Option.some.inj (hclose.trans hp), ?_⟩
          rw [List.map_cons, group, if_neg hn, if_pos hclose, if_pos hone, List.append_nil]
        · exact hset _ (by rw [List.map_cons, group, if_neg hn, if_pos hclose, if_neg hone])
      · by_cases heof : n.kind = .eof
        · rw [List.map_cons, group, if_neg hn, if_neg hclose, if_pos heof, Event.chain]
          exact .inr ⟨_, rfl⟩
        · exact hset p.depth (by rw [List.map_cons, group, if_neg hn, if_neg hclose, if_neg heof]; rfl)

/-- Grouping at every level says that brackets are well nested: none is left open, and no closing one is left. -/
structure Clean (es : Events Node) : Prop where
  closed : ∀ c ∈ reports es, c.isUnclosed = false
  paired : ∀ m ∈ Node.preorderAll (items es), m.kind ≠ .rpar ∧ m.kind ≠ .rbrace

theorem Groups.clean {forest : List Node} (h : Groups ns forest) : Clean (nested ns) ∧ items (nested ns) = forest := by
  rw [h.nested_eq, Event.items_map_item]
  refine ⟨⟨?_, ?_⟩, rfl⟩
  · rw [Event.reports_map_item]
    simp
  · rw [Event.items_map_item]
    exact h.closed

theorem nested_cons (hn : (n.kind.closer?.isSome && !n.resolved) = false) :
    nested (n :: ns) = .item n :: nested ns := by
  rw [nested_eq, nested_eq, List.map_cons, group, if_neg (by simp [hn])]

/-- A closed bracket at the start: its group comes first, and the complaints about its inside before it. -/
theorem nested_pair {opener closer : Node} {inner rest : List Node}
    (h : nested (opener :: (inner ++ closer :: rest)) = Event.chain (inward opener inner) (nested rest)) :
    reports (nested (opener :: (inner ++ closer :: rest))) = reports (nested inner) ++ reports (nested rest) ∧
      items (nested (opener :: (inner ++ closer :: rest))) =
        opener.into opener.kind opener.text (items (nested inner)) :: items (nested rest) := by
  have hhalt : halt? (inward opener inner) = none := by
    cases hhalt : halt? (inward opener inner) with
    | none => rfl
    | some e =>
      have hinner := close_eq_error (Built.halt_mem_events (mem_of_halt? hhalt))
      rw [halt?_nested] at hinner
      cases hinner
  rw [h, Event.chain_eq_append hhalt, inward_eq, Event.reports_append, Event.items_append, Event.reports_append,
    Event.items_append, Event.reports_map_report, Event.items_map_report]
  simp [reports, items]

/-- What is grouped without such complaints is well nested. The induction is on the number of nodes: the inside of a
bracket and what comes after it are shorter. -/
theorem wellNested_of_clean : ∀ ns : List Node, Clean (nested ns) → (∀ n ∈ ns, IsToken n) → WellNested ns
  | [], _, _ => .nil
  | n :: ns, h, ht => by
    have hns : ∀ m ∈ ns, IsToken m := fun m hm => ht m (by simp [hm])
    have hclosed := h.closed
    have hpaired := h.paired
    cases hn : n.kind.closer? with
    | none =>
      rw [nested_cons (by simp [hn])] at hclosed hpaired
      rw [items, Node.preorderAll] at hpaired
      have hself : n ∈ n.preorder := by cases n; simp [Node.preorder]
      have hother : n.kind ∉ bracketKinds := not_mem_bracketKinds (by simp [hn]) (hpaired n (by simp [hself]))
      exact .other hother (wellNested_of_clean ns ⟨hclosed, fun m hm => hpaired m (by simp [hm])⟩ hns)
    | some c =>
      have hopen : nested (n :: ns) = group inward (some (.start n)) (ns.map .item) := by
        rw [nested_eq, List.map_cons, group, if_pos (by simp [hn, (ht n (by simp)).loose (closer?_brackets hn).1])]
      rcases group_pending (.start n) hn ns with ⟨inner, closer, rest, rfl, rfl, hgroup⟩ | ⟨es, hgroup⟩
      · obtain ⟨hreports, hitems⟩ := nested_pair (by rw [hopen, hgroup, nested_eq rest]; rfl)
        rw [hreports] at hclosed
        rw [hitems, Node.preorderAll, Node.into, Node.preorder] at hpaired
        have hinner : WellNested inner := wellNested_of_clean inner
          ⟨fun c hc => hclosed c (by simp [hc]), fun m hm => hpaired m (by simp [hm])⟩ fun m hm => hns m (by simp [hm])
        have hrest : WellNested rest := wellNested_of_clean rest
          ⟨fun c hc => hclosed c (by simp [hc]), fun m hm => hpaired m (by simp [hm])⟩ fun m hm => hns m (by simp [hm])
        exact .pair hn hinner hrest
      · -- the complaint about the open bracket is the first event
        rw [hopen, hgroup] at hclosed
        cases hclosed (Pending.start n).unclosed (by simp [reports])
termination_by ns => ns.length

/-! ## What the matcher accepts is well nested -/

/-- Nodes that close all brackets of a stack, the innermost first. -/
def Closes : List (Node × List Node) → List Node → Prop
  | [], ns => WellNested ns
  | (opener, _) :: brackets, ns => ∃ inner closer rest, ns = inner ++ closer :: rest ∧
      opener.kind.closer? = some closer.kind ∧ WellNested inner ∧ Closes brackets rest

theorem Closes.append {brackets : List (Node × List Node)} {ms : List Node} (h : WellNested ns)
    (hms : Closes brackets ms) : Closes brackets (ns ++ ms) := by
  cases brackets with
  | nil => exact h.append hms
  | cons bracket brackets =>
    obtain ⟨inner, closer, rest, rfl, hc, hinner, hrest⟩ := hms
    exact ⟨ns ++ inner, closer, rest, by simp, hc, h.append hinner, hrest⟩

/-- One step of the matcher: what closes the brackets after a node closes those before it, with the node. -/
theorem Closes.take {s s' : Stack} (h : s.take n = some s') (hns : Closes s'.brackets ns) :
    Closes s.brackets (n :: ns) := by
  obtain ⟨brackets, current⟩ := s
  unfold Stack.take at h
  split_ifs at h with hopen hclose
  · cases h
    obtain ⟨inner, closer, rest, rfl, hc, hinner, hrest⟩ := hns
    have hpair : WellNested (n :: (inner ++ [closer])) := .pair hc hinner .nil
    simpa using Closes.append hpair hrest
  · cases brackets with
    | nil => cases h
    | cons bracket brackets =>
      simp only [Option.ite_none_right_eq_some] at h
      obtain ⟨hc, hs⟩ := h
      cases hs
      exact ⟨[], n, ns, rfl, hc, .nil, hns⟩
  · cases h
    have hone : WellNested [n] := .other (not_mem_bracketKinds (by simpa using hopen) (by simpa using hclose)) .nil
    exact Closes.append hone hns

/-- A whole run of the matcher that leaves no bracket open has closed those that were open before it. -/
theorem Closes.run {s s' : Stack} (h : ns.foldlM Stack.take s = some s') (hs : s'.brackets = []) :
    Closes s.brackets ns := by
  induction ns generalizing s with
  | nil =>
    cases h
    rw [hs]
    exact WellNested.nil
  | cons n ns ih =>
    rw [List.foldlM_cons] at h
    obtain ⟨t, htake, hrun⟩ := Option.bind_eq_some_iff.1 h
    exact Closes.take htake (ih hrun)

theorem Groups.matchBrackets_eq {forest : List Node} (h : Groups ns forest) : matchBrackets ns = some forest := by
  simp [matchBrackets, h.matched]

theorem wellNested_of_match {forest : List Node} (h : matchBrackets ns = some forest) : WellNested ns := by
  obtain ⟨s, hrun, hs⟩ := Option.bind_eq_some_iff.1 h
  have hempty : s.brackets = [] := by simpa using (Option.ite_none_right_eq_some.1 hs).1
  exact Closes.run hrun hempty

/-- Grouping brackets at every level, over nodes of tokens of which only the last may be the end of the source:
no bracket is complained about as open and no closing bracket is left, at any level, just if the brackets are well
nested. And just then a matcher with one stack succeeds, and what it makes, a group for every pair of brackets that it
finds and the other nodes as they stand, is what grouping comes to. -/
theorem grouping_finds_nesting (ns : List Node) (ht : ∀ n ∈ ns, IsToken n) (hend : ∀ n ∈ ns.dropLast, n.kind ≠ .eof) :
    ((∀ c ∈ reports (nested ns), c.isUnclosed = false) ∧
      (∀ m ∈ Node.preorderAll (items (nested ns)), m.kind ≠ .rpar ∧ m.kind ≠ .rbrace) ↔ WellNested ns) ∧
    ∀ forest, matchBrackets ns = some forest ↔ WellNested ns ∧ items (nested ns) = forest := by
  have hgroups : WellNested ns → ∃ forest, Groups ns forest := fun h => h.groups ht hend
  refine ⟨⟨fun h => wellNested_of_clean ns ⟨h.1, h.2⟩ ht, fun h => ?_⟩, fun forest => ⟨fun h => ?_, ?_⟩⟩
  · obtain ⟨forest, hforest⟩ := hgroups h
    exact ⟨hforest.clean.1.closed, hforest.clean.1.paired⟩
  · have hwell := wellNested_of_match h
    obtain ⟨forest', hforest⟩ := hgroups hwell
    refine ⟨hwell, ?_⟩
    rw [hforest.clean.2, ← Option.some.inj (hforest.matchBrackets_eq.symm.trans h)]
  · rintro ⟨hwell, rfl⟩
    obtain ⟨forest, hforest⟩ := hgroups hwell
    rw [hforest.matchBrackets_eq, hforest.clean.2]

/-- Brackets of one sort inside those of the other sort, and the end of the source after them. -/
theorem grouping_finds_nesting_mixed :
    let word (kind : Kind) : Node := .ofToken ⟨kind, [], .start []⟩
    let ns := [Kind.lpar, .lbrace, .ident, .rbrace, .rpar, .eof].map word
    (∀ n ∈ ns, IsToken n) ∧ (∀ n ∈ ns.dropLast, n.kind ≠ .eof) ∧
      items (nested ns) = [(word .lpar).into .lpar [] [(word .lbrace).into .lbrace [] [word .ident]], word .eof] := by
  intro word ns
  have ht : ∀ n ∈ ns, IsToken n := by
    intro n hn
    obtain ⟨kind, -, rfl⟩ := List.mem_map.1 hn
    exact ⟨_, rfl⟩
  have hend : ∀ n ∈ ns.dropLast, n.kind ≠ .eof := by decide
  exact ⟨ht, hend, (((grouping_finds_nesting ns ht hend).2 _).1 rfl).2⟩

end Kettle.Tree
