/-
Building looks at little. Nodes, complaints and faults may be recast before a tree is built or after it,
and nothing else changes, as long as nodes keep their kinds and marks, bracket groups keep their form, and
statements are reduced as before: grouping, splitting and closing commute with the change at every depth.
-/
import Kettle.Proofs.Tree.Delivered

namespace Kettle

/-! ## Stages on recast events -/

namespace Event

variable {ρ ρ' ε ε' α α' β β' : Type}

/-- The event with its item, its report or its halt replaced. -/
def map (f : α → β) (g : ρ → ρ') (h : ε → ε') : Event ρ ε α → Event ρ' ε' β
  | item a => item (f a)
  | report r => report (g r)
  | halt e => halt (h e)

variable (f : α → β) (g : ρ → ρ') (h : ε → ε')

theorem chain_map (es more : List (Event ρ ε α)) :
    chain (es.map (map f g h)) (more.map (map f g h)) = (chain es more).map (map f g h) := by
  induction es, more using chain_induct with
  | nil => rfl
  | halt => rfl
  | report r rest more ih => simp [chain, map, ih]
  | item a rest more ih => simp [chain, map, ih]

theorem each_map {k : α → List (Event ρ ε α')} {k' : β → List (Event ρ' ε' β')} (f' : α' → β')
    {es : List (Event ρ ε α)} (hk : ∀ a, item a ∈ es → k' (f a) = (k a).map (map f' g h)) :
    each k' (es.map (map f g h)) = (each k es).map (map f' g h) := by
  induction es with
  | nil => rfl
  | cons e es ih =>
    have hes := ih fun a ha => hk a (List.mem_cons_of_mem _ ha)
    cases e with
    | item a => simp only [List.map_cons, map, each]; rw [hk a (by simp), hes, chain_map]
    | report r => simp [each, map, hes]
    | halt e => rfl

@[simp] theorem items_map (es : List (Event ρ ε α)) : items (es.map (map f g h)) = (items es).map f := by
  induction es with
  | nil => rfl
  | cons e es ih => cases e <;> simp [items, map, ih]

@[simp] theorem reports_map (es : List (Event ρ ε α)) : reports (es.map (map f g h)) = (reports es).map g := by
  induction es with
  | nil => rfl
  | cons e es ih => cases e <;> simp [reports, map, ih]

@[simp] theorem halt?_map (es : List (Event ρ ε α)) : halt? (es.map (map f g h)) = (halt? es).map h := by
  induction es with
  | nil => rfl
  | cons e es ih => cases e <;> simp [halt?, map, ih]

theorem outcome_map (es : List (Event ρ ε α)) :
    outcome (es.map (map f g h)) = ((outcome es).map (List.map f)).mapError h := by
  unfold outcome
  rw [halt?_map, items_map]
  cases halt? es <;> rfl

end Event

namespace Tree

open Event (Items)

/-- Statements that are kept are operands. -/
theorem statements_resolved (limits : Limits) (source : Text) (es : Events Node) :
    Items (fun n => n.resolved = true) (statements limits source es) :=
  Items.each (P := fun _ => True) (fun _ _ => trivial) fun _ _ n hn =>
    (Statement.check_eq_ok_iff.1 (check_of_item hn)).2 n (Node.mem_preorder_self n)

/-- A way of recasting what building works on and hands on. -/
structure Recast where
  node : Node → Node
  complaint : Complaint → Complaint
  fault : Fault → Fault

namespace Recast

variable (ρ : Recast)

/-- Recast events about nodes. -/
def events (es : Events Node) : Events Node := es.map (Event.map ρ.node ρ.complaint ρ.fault)

/-- A recast open bracket. -/
def pending (p : Pending) : Pending := ⟨ρ.node p.opener, p.depth, p.inner.map ρ.node⟩

/-- Recast results of a building. -/
def built (b : Built) : Built := ⟨b.complaints.map ρ.complaint, (b.result.map ρ.node).mapError ρ.fault⟩

/-- What building does not notice. Statements are settled as before where they hold what is delivered to
the reductions, if the source is recast as well. -/
structure Unnoticed : Prop where
  kind : ∀ n, (ρ.node n).kind = n.kind
  resolved : ∀ n, (ρ.node n).resolved = n.resolved
  unclosed : ∀ {p : Pending}, p.opener.kind.closer?.isSome → (ρ.pending p).unclosed = ρ.complaint p.unclosed
  tooDeep : ∀ {n : Node}, n.kind.closer?.isSome → tooDeep (ρ.node n).pos.source = ρ.fault (tooDeep n.pos.source)
  close : ∀ {n : Node} {children : List Node}, n.kind.closer?.isSome → (∀ c ∈ children, c.resolved = true) →
    (ρ.node n).into (ρ.node n).kind (ρ.node n).text (children.map ρ.node) = ρ.node (n.into n.kind n.text children)
  settle : ∀ {limits : Limits} {source source' : Text} {s : Statement}, Tree.tooDeep source' = ρ.fault (Tree.tooDeep source) →
    s ≠ [] → (∀ n ∈ s, isSeparator n = false ∧ n.Delivered) →
    settle limits source' (s.map ρ.node) = ρ.events (settle limits source s)

variable {ρ}

theorem events_built (b : Built) : (ρ.built b).events = ρ.events b.events := by
  obtain ⟨complaints, result⟩ := b
  cases result <;> simp [Built.events, built, events, Event.map, Except.map, Except.mapError]

namespace Unnoticed

variable (hρ : ρ.Unnoticed)
include hρ

theorem isSeparator (n : Node) : Tree.isSeparator (ρ.node n) = Tree.isSeparator n := by
  simp [Tree.isSeparator, Node.isLoose, hρ.kind, hρ.resolved]

theorem split (current : List Node) (es : Events Node) :
    Tree.split (current.map ρ.node) (ρ.events es) =
      (Tree.split current es).map (Event.map (List.map ρ.node) ρ.complaint ρ.fault) := by
  have hflush : ∀ ns : List Node, flush (ns.map ρ.node) =
      (flush ns).map (Event.map (List.map ρ.node) ρ.complaint ρ.fault) := by
    intro ns
    cases ns with
    | nil => rfl
    | cons n ns => simp [flush, Event.map]
  induction current, es using Tree.split_induct with
  | nil current => exact hflush current
  | halt => rfl
  | report current r rest ih => exact congrArg _ ih
  | separator current n rest hn ih =>
    simp only [events, List.map_cons, Event.map, Tree.split, hρ.isSeparator, hn, if_true, List.map_append, hflush]
    rw [← ih]
    rfl
  | node current n rest hn ih =>
    simp only [events, List.map_cons, Event.map, Tree.split, hρ.isSeparator, hn]
    exact ih

theorem statements {limits : Limits} {source source' : Text}
    (hsource : Tree.tooDeep source' = ρ.fault (Tree.tooDeep source)) {es : Events Node} (hes : Items Node.Delivered es) :
    Tree.statements limits source' (ρ.events es) = ρ.events (Tree.statements limits source es) := by
  have hsplit : Tree.split [] (ρ.events es) =
      (Tree.split [] es).map (Event.map (List.map ρ.node) ρ.complaint ρ.fault) := hρ.split [] es
  unfold Tree.statements
  rw [hsplit]
  refine Event.each_map _ _ _ _ fun s hs => ?_
  obtain ⟨hne, hnodes⟩ := split_items (D := fun n => Tree.isSeparator n = false ∧ n.Delivered) [] es (by simp)
    (fun n hn hsep => ⟨hsep, hes n hn⟩) s hs
  exact hρ.settle hsource hne hnodes

/-- Where recast brackets are built into recast groups, grouping commutes with the change. -/
theorem grouping (build build' : Node → List Node → Events Node)
    (hb : ∀ o ns, o.kind.closer?.isSome → (∀ n ∈ ns, IsToken n) →
      build' (ρ.node o) (ns.map ρ.node) = ρ.events (build o ns))
    (pending : Option Pending) (es : Events Node) (hp : ∀ p ∈ pending, p.Holds IsToken)
    (hes : Items IsToken es) :
    Tree.group build' (pending.map ρ.pending) (ρ.events es) = ρ.events (Tree.group build pending es) := by
  have hbuild : ∀ p : Pending, p.Holds IsToken → build' (ρ.pending p).opener (ρ.pending p).inner.reverse =
      ρ.events (build p.opener p.inner.reverse) := by
    intro p hp
    rw [← hb _ _ hp.opener fun n hn => hp.inner n (by simpa using hn), Recast.pending, List.map_reverse]
  have hopener : ∀ p : Pending, (ρ.pending p).opener.kind = p.opener.kind := fun p => hρ.kind p.opener
  have hdepth : ∀ p : Pending, (ρ.pending p).depth = p.depth := fun _ => rfl
  induction pending, es using Tree.group_induct build with
  | nil => rfl
  | unclosed p =>
    have hp := hp p rfl
    simp only [Option.map_some, events, List.map_nil, Tree.group, hρ.unclosed hp.opener, hbuild p hp, List.map_cons,
      Event.map]
  | halt pending e rest => cases pending <;> rfl
  | report pending r rest ih =>
    have ih := ih hp fun a ha => hes a (by simp [ha])
    cases pending with
    | none => exact congrArg _ ih
    | some p => exact congrArg _ ih
  | opening n rest hn ih =>
    simp only [Option.map_none, events, List.map_cons, Event.map, Tree.group, hρ.kind, hρ.resolved, hn, if_true]
    refine ih ?_ fun a ha => hes a (by simp [ha])
    rintro p ⟨⟩
    exact ⟨(Bool.and_eq_true_iff.1 hn).1, hes n (by simp), by simp [Pending.start]⟩
  | outside n rest hn ih =>
    simp only [Option.map_none, events, List.map_cons, Event.map, Tree.group, hρ.kind, hρ.resolved, hn]
    exact congrArg (List.cons _) (ih (by simp) fun a ha => hes a (by simp [ha]))
  | deeper p n rest hn ih =>
    simp only [Option.map_some, events, List.map_cons, Event.map, Tree.group, hρ.kind, hopener, if_pos hn]
    refine ih ?_ fun a ha => hes a (by simp [ha])
    rintro q ⟨⟩
    exact (hp p rfl).add (hes n (by simp)) _
  | closing p n rest hn hclose hone ih =>
    simp only [Option.map_some, events, List.map_cons, Event.map, Tree.group, hρ.kind, hopener, if_neg hn, if_pos hclose,
      hdepth, if_pos hone]
    rw [hbuild p (hp p rfl), ← Event.chain_map]
    exact congrArg _ (ih (by simp) fun a ha => hes a (by simp [ha]))
  | shallower p n rest hn hclose hone ih =>
    simp only [Option.map_some, events, List.map_cons, Event.map, Tree.group, hρ.kind, hopener, if_neg hn, if_pos hclose,
      hdepth, if_neg hone]
    refine ih ?_ fun a ha => hes a (by simp [ha])
    rintro q ⟨⟩
    exact (hp p rfl).add (hes n (by simp)) _
  | ending p n rest hn hclose heof ih =>
    have hp := hp p rfl
    simp only [Option.map_some, events, List.map_cons, Event.map, Tree.group, hρ.kind, hopener, if_neg hn, if_neg hclose,
      if_pos heof]
    rw [hbuild p hp, hρ.unclosed hp.opener, ← Event.chain_map]
    exact congrArg _ (ih (by simp) fun a ha => hes a (by simp [ha]))
  | inside p n rest hn hclose heof ih =>
    simp only [Option.map_some, events, List.map_cons, Event.map, Tree.group, hρ.kind, hopener, if_neg hn, if_neg hclose,
      if_neg heof]
    refine ih ?_ fun a ha => hes a (by simp [ha])
    rintro q ⟨⟩
    exact (hp p rfl).add (hes n (by simp)) _

theorem closing {opener : Node} (ho : opener.kind.closer?.isSome) {es : Events Node}
    (hes : Items (fun n => n.resolved = true) es) :
    Tree.close (ρ.node opener) (ρ.events es) = ρ.built (Tree.close opener es) := by
  unfold Tree.close events built
  rw [Event.reports_map, Event.outcome_map]
  cases houtcome : Event.outcome es with
  | error e => rfl
  | ok ns =>
    have hns : ∀ n ∈ ns, n.resolved = true := by
      intro n hn
      rw [Event.outcome_eq_ok houtcome] at hn
      exact hes n (Event.mem_items.1 hn)
    simp [Except.map, Except.mapError, hρ.close ho hns]

/-- At every depth, recast tokens are built into recast groups. -/
theorem building (limits : Limits) : ∀ (depth : Nat) (opener : Node) (inner : List Node),
    opener.kind.closer?.isSome → (∀ n ∈ inner, IsToken n) →
    build limits depth (ρ.node opener) (inner.map ρ.node) = ρ.built (build limits depth opener inner)
  | 0, opener, inner, ho, _ => by simp [build, built, hρ.tooDeep ho, Except.map, Except.mapError]
  | depth + 1, opener, inner, ho, hi => by
    have hb : ∀ o ns, o.kind.closer?.isSome → (∀ n ∈ ns, IsToken n) →
        (build limits depth (ρ.node o) (ns.map ρ.node)).events = ρ.events (build limits depth o ns).events := by
      intro o ns ho hns
      rw [building limits depth o ns ho hns, events_built]
    have hinner : Items IsToken (inner.map .item : Events Node) := .map_item hi
    have hgroup := hρ.grouping (fun n ns => (build limits depth n ns).events)
      (fun n ns => (build limits depth n ns).events) hb none
      (inner.map .item) (by simp) hinner
    rw [build, build, ← hρ.closing ho (statements_resolved limits _ _),
      ← hρ.statements (hρ.tooDeep ho) (grouped_delivered depth hinner), ← hgroup]
    simp [events, Event.map, Function.comp_def]

theorem groupAll (limits : Limits) {es : Events Node} (hes : Items IsToken es) :
    Tree.groupAll limits (ρ.events es) = ρ.events (Tree.groupAll limits es) := by
  refine hρ.grouping _ _ (fun o ns ho hns => ?_) none es (by simp) hes
  rw [hρ.building limits limits.brackets o ns ho hns, events_built]

end Unnoticed

end Recast

end Tree

end Kettle
