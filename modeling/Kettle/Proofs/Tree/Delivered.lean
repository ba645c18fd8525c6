/-
What building a tree hands to the reductions, at every level of brackets: statements of tokens, leaves
and bracket groups around finished trees. So the trees that are kept are those that the grammar derives.
-/
import Kettle.Proofs.Statement.Derivation
import Kettle.Tree.Build

namespace Kettle

/-! ## Properties of all items -/

namespace Event

variable {ρ ε α β : Type} {P : α → Prop} {Q : β → Prop}

/-- Every item among some events has a property. -/
def Items (P : α → Prop) (es : List (Event ρ ε α)) : Prop := ∀ a, Event.item a ∈ es → P a

theorem mem_chain {e : Event ρ ε α} {es more : List (Event ρ ε α)} (h : e ∈ Event.chain es more) :
    e ∈ es ∨ e ∈ more := by
  induction es, more using Event.chain_induct with
  | nil => exact .inr h
  | halt => exact .inl (List.mem_cons.2 (.inl (List.mem_singleton.1 h)))
  | report r rest more ih =>
    rcases List.mem_cons.1 h with rfl | h
    · simp
    · exact (ih h).imp_left (List.mem_cons_of_mem _)
  | item b rest more ih =>
    rcases List.mem_cons.1 h with rfl | h
    · simp
    · exact (ih h).imp_left (List.mem_cons_of_mem _)

theorem Items.map_item {as : List α} (h : ∀ a ∈ as, P a) : Items P (as.map .item : List (Event ρ ε α)) := by
  intro a ha
  obtain ⟨b, hb, ⟨⟩⟩ := List.mem_map.1 ha
  exact h a hb

theorem Items.chain {es more : List (Event ρ ε α)} (h : Items P es) (h' : Items P more) :
    Items P (Event.chain es more) := fun a ha => (mem_chain ha).elim (h a) (h' a)

/-- A stage that works on one item at a time gives the items that it makes of the items it gets. -/
theorem Items.each {f : α → List (Event ρ ε β)} {es : List (Event ρ ε α)} (h : Items P es)
    (hf : ∀ a, P a → Items Q (f a)) : Items Q (Event.each f es) := by
  induction es with
  | nil => intro b hb; cases hb
  | cons e es ih =>
    have hes := ih fun a ha => h a (List.mem_cons_of_mem _ ha)
    cases e with
    | item a => exact (hf a (h a (by simp))).chain hes
    | report r => intro b hb; exact hes b (by simpa [Event.each] using hb)
    | halt e => intro b hb; simp [Event.each] at hb

theorem mem_items {a : α} {es : List (Event ρ ε α)} : a ∈ items es ↔ Event.item a ∈ es := by
  induction es with
  | nil => simp [items]
  | cons e es ih => cases e <;> simp [items, ih]

theorem outcome_eq_ok {es : List (Event ρ ε α)} {as : List α} (h : outcome es = .ok as) : as = items es := by
  unfold outcome at h
  split at h
  · cases h
  · exact (Except.ok.inj h).symm

end Event

theorem Node.isSeparator_loose {n : Node} (h : Tree.isSeparator n = true) :
    n.resolved = false ∧ (n.kind = .separator ∨ n.kind = .eof) := by
  simp only [Tree.isSeparator, Bool.or_eq_true, isLoose_iff] at h
  tauto

/-- A token keeps its kind, unless it is a keyword. -/
theorem Node.kindOf_cases (t : Token) : kindOf t = t.kind ∨ (t.text, kindOf t) ∈ keywords := by
  unfold kindOf
  split
  · rename_i hident
    cases hl : keywords.lookup t.text with
    | none => exact .inl hident.symm
    | some k =>
      obtain ⟨before, after, hsplit, -⟩ := List.lookup_eq_some_iff.1 hl
      exact .inr (by simp [hsplit])
  · exact .inl rfl

namespace Tree

open Event (Items)

variable {limits : Limits} {source : Text} {D T : Node → Prop} {opener n : Node} {s : Statement}

/-! ## Grouping and splitting -/

/-- The nodes from an open bracket on. -/
def Pending.held : Option Pending → List Node
  | none => []
  | some p => p.opener :: p.inner.reverse

/-- An open bracket that is of some sort, as are the nodes since. -/
structure Pending.Holds (T : Node → Prop) (p : Pending) : Prop where
  opener : p.opener.kind.closer?.isSome
  token : T p.opener
  inner : ∀ n ∈ p.inner, T n

theorem Pending.Holds.add {p : Pending} (h : p.Holds T) (hn : T n) (depth : Nat) :
    Pending.Holds T ⟨p.opener, depth, n :: p.inner⟩ := by
  refine ⟨h.opener, h.token, fun m hm => ?_⟩
  rcases List.mem_cons.1 hm with rfl | hm
  · exact hn
  · exact h.inner m hm

/-- What grouping hands on, from what comes in and from what `build` makes of brackets. -/
theorem group_events {build : Node → List Node → Events Node} {E : Event Complaint Fault Node → Prop}
    (hb : ∀ o ns, o.kind.closer?.isSome → T o → (∀ n ∈ ns, T n) → ∀ e ∈ build o ns, E e)
    (hreport : ∀ c, E (.report c)) (hitem : ∀ n, T n → E (.item n)) :
    ∀ (pending : Option Pending) (es : Events Node), (∀ p ∈ pending, p.Holds T) → Items T es →
      (∀ f, Event.halt f ∈ es → E (.halt f)) → ∀ e ∈ group build pending es, E e := by
  intro pending es hp hes hhalt
  have hbuild : ∀ p : Pending, p.Holds T → ∀ e ∈ build p.opener p.inner.reverse, E e :=
    fun p hp => hb _ _ hp.opener hp.token fun n hn => hp.inner n (by simpa using hn)
  have hcons : ∀ {e : Event Complaint Fault Node} {es : Events Node}, E e → (∀ e ∈ es, E e) → ∀ e' ∈ e :: es, E e' :=
    fun he hes => List.forall_mem_cons.2 ⟨he, hes⟩
  have hchain : ∀ {first more : Events Node}, (∀ e ∈ first, E e) → (∀ e ∈ more, E e) →
      ∀ e ∈ Event.chain first more, E e := fun hfirst hmore e he => (Event.mem_chain he).elim (hfirst e) (hmore e)
  induction pending, es using group_induct build with
  | nil => simp
  | unclosed p => exact hcons (hreport _) (hbuild p (hp p rfl))
  | halt => simpa using hhalt _ (by simp)
  | report pending r rest ih =>
    exact hcons (hreport r) (ih hp (fun a ha => hes a (by simp [ha])) fun f hf => hhalt f (by simp [hf]))
  | opening n rest hn ih =>
    refine ih ?_ (fun a ha => hes a (by simp [ha])) fun f hf => hhalt f (by simp [hf])
    rintro p ⟨⟩
    simp only [Bool.and_eq_true] at hn
    exact ⟨hn.1, hes n (by simp), by simp [Pending.start]⟩
  | outside n rest hn ih =>
    refine hcons (hitem n (hes n (by simp))) ?_
    exact ih (by simp) (fun a ha => hes a (by simp [ha])) fun f hf => hhalt f (by simp [hf])
  | deeper p n rest _ ih =>
    refine ih ?_ (fun a ha => hes a (by simp [ha])) fun f hf => hhalt f (by simp [hf])
    rintro q ⟨⟩
    exact (hp p rfl).add (hes n (by simp)) _
  | closing p n rest _ _ _ ih =>
    refine hchain (hbuild p (hp p rfl)) ?_
    exact ih (by simp) (fun a ha => hes a (by simp [ha])) fun f hf => hhalt f (by simp [hf])
  | shallower p n rest _ _ _ ih =>
    refine ih ?_ (fun a ha => hes a (by simp [ha])) fun f hf => hhalt f (by simp [hf])
    rintro q ⟨⟩
    exact (hp p rfl).add (hes n (by simp)) _
  | ending p n rest _ _ _ ih =>
    refine hchain (hcons (hreport _) (hbuild p (hp p rfl))) ?_
    exact ih (by simp) (fun a ha => hes a (by simp [ha])) fun f hf => hhalt f (by simp [hf])
  | inside p n rest _ _ _ ih =>
    refine ih ?_ (fun a ha => hes a (by simp [ha])) fun f hf => hhalt f (by simp [hf])
    rintro q ⟨⟩
    exact (hp p rfl).add (hes n (by simp)) _

/-- Where `build` makes groups of the right sort, so does grouping. -/
theorem group_items {build : Node → List Node → Events Node}
    (hb : ∀ o ns, o.kind.closer?.isSome → T o → (∀ n ∈ ns, T n) → Items D (build o ns)) (hT : ∀ n, T n → D n)
    (pending : Option Pending) (es : Events Node) (hp : ∀ p ∈ pending, p.Holds T) (hes : Items T es) :
    Items D (group build pending es) := by
  intro a ha
  refine group_events (E := fun e => ∀ a, e = .item a → D a) ?_ ?_ ?_ pending es hp hes ?_ _ ha a rfl
  · rintro o ns ho hopener hns e he a rfl
    exact hb o ns ho hopener hns a he
  · rintro c a ⟨⟩
  · rintro n hn a ⟨⟩
    exact hT n hn
  · rintro f _ a ⟨⟩

theorem flush_items {current : List Node} (h : ∀ n ∈ current, D n) :
    Items (fun s => s ≠ [] ∧ ∀ n ∈ s, D n) (flush current) := by
  intro s hs
  unfold flush at hs
  split at hs
  · cases hs
  · rename_i hne
    obtain rfl : s = current.reverse := by simpa using hs
    exact ⟨by simpa using hne, fun n hn => h n (by simpa using hn)⟩

/-- Statements hold something, and the nodes that come in, but for separators. -/
theorem split_items (current : List Node) (es : Events Node) (hc : ∀ n ∈ current, D n)
    (hes : Items (fun n => isSeparator n = false → D n) es) :
    Items (fun s => s ≠ [] ∧ ∀ n ∈ s, D n) (split current es) := by
  induction current, es using split_induct with
  | nil => exact flush_items hc
  | halt => intro a ha; simp at ha
  | report current r rest ih =>
    have hrest := ih hc fun a ha => hes a (by simp [ha])
    exact fun a ha => hrest a (by simpa using ha)
  | separator current n rest _ ih =>
    intro a ha
    rcases List.mem_append.1 ha with ha | ha
    · exact flush_items hc a ha
    · exact ih (by simp) (fun a ha => hes a (by simp [ha])) a ha
  | node current n rest hn ih =>
    refine ih ?_ fun a ha => hes a (by simp [ha])
    intro m hm
    rcases List.mem_cons.1 hm with rfl | hm
    · exact hes m (by simp) (by simpa using hn)
    · exact hc m hm

/-! ## What is delivered -/

/-- A node of a token, as it comes from the scan. -/
def IsToken (n : Node) : Prop := ∃ t, n = .ofToken t

theorem IsToken.delivered (h : IsToken n) : n.Delivered := by
  obtain ⟨t, rfl⟩ := h
  exact .ofToken t

/-- A kept node is the tree of a statement, which is not empty. -/
def IsTree (n : Node) : Prop := ∃ s, (∀ m ∈ s, m.Delivered) ∧ Statement.Derives s n

theorem IsTree.finished (h : IsTree n) : n.Finished := by
  obtain ⟨s, hs, hn⟩ := h
  exact Statement.derives_finished s n hs hn

/-- A statement that is settled to an item is reduced to it, and one that is reported is complained about; any other
one stops the building. -/
theorem mem_settle {e : Event Complaint Fault Node} (h : e ∈ settle limits source s) :
    (∃ n, e = .item n ∧ s.exhausts limits.nodes = false ∧ s.reduce.check = .ok n) ∨
    (∃ c, e = .report c ∧ s.exhausts limits.nodes = false ∧ s.reduce.check = .error c) ∨
    e = .halt (tooDeep source) ∧ s.exhausts limits.nodes = true := by
  unfold settle at h
  split at h
  · rename_i hdeep
    exact .inr (.inr ⟨List.mem_singleton.1 h, hdeep⟩)
  · rename_i hshallow
    have hshallow : s.exhausts limits.nodes = false := by simpa using hshallow
    split at h
    · rename_i n hok
      exact .inl ⟨n, List.mem_singleton.1 h, hshallow, hok⟩
    · rename_i c hc
      exact .inr (.inl ⟨c, List.mem_singleton.1 h, hshallow, hc⟩)

theorem check_of_item (h : Event.item n ∈ settle limits source s) : s.reduce.check = .ok n := by
  rcases mem_settle h with ⟨_, ⟨⟩, -, hok⟩ | ⟨_, ⟨⟩, -⟩ | ⟨⟨⟩, -⟩
  exact hok

theorem check_of_report {c : Complaint} (h : Event.report c ∈ settle limits source s) : s.reduce.check = .error c := by
  rcases mem_settle h with ⟨_, ⟨⟩, -⟩ | ⟨_, ⟨⟩, -, hc⟩ | ⟨⟨⟩, -⟩
  exact hc

theorem settle_derives (h : ∀ m ∈ s, m.Delivered) (hn : Event.item n ∈ settle limits source s) :
    Statement.Derives s n := (Statement.check_reduce_eq_ok_iff h).1 (check_of_item hn)

theorem settle_items (h : ∀ m ∈ s, m.Delivered) : Items IsTree (settle limits source s) :=
  fun _ hn => ⟨s, h, settle_derives h hn⟩

/-- The statements among delivered nodes leave trees of the grammar. -/
theorem statements_items {es : Events Node} (h : Items Node.Delivered es) : Items IsTree (statements limits source es) :=
  (split_items [] es (by simp) fun n hn _ => h n hn).each fun _ hs => settle_items hs.2

/-- What a finished building comes to, if it is a node. -/
theorem Built.events_items {b : Built} (h : ∀ n, b.result = .ok n → D n) : Items D b.events := by
  intro n hn
  rcases List.mem_append.1 hn with hn | hn
  · simp at hn
  · rw [List.mem_singleton] at hn
    split at hn
    · rename_i m hm
      cases hn
      exact h n hm
    · cases hn

theorem close_eq_ok {es : Events Node} (h : (close opener es).result = .ok n) :
    n = opener.into opener.kind opener.text (Event.items es) := by
  cases ho : Event.outcome es with
  | error e => simp [close, ho, Except.map] at h
  | ok ns =>
    rw [← Event.outcome_eq_ok ho]
    simpa [close, ho, Except.map, eq_comm] using h

/-- At every level of brackets, what is built of tokens is a group of trees of the grammar. -/
theorem build_delivered : ∀ (depth : Nat) {opener : Node} {inner : List Node}, opener.kind.closer?.isSome →
    (∀ n ∈ inner, IsToken n) → ∀ n, (build limits depth opener inner).result = .ok n → n.Delivered
  | 0, _, _, _, _, n, h => by cases h
  | depth + 1, opener, inner, ho, hi, n, h => by
    have hgroup : Items Node.Delivered
        (group (fun n ns => (build limits depth n ns).events) none (inner.map .item)) := by
      refine group_items (T := IsToken) ?_ (fun _ => IsToken.delivered) none _ (by simp) (.map_item hi)
      exact fun o ns ho _ hns => Built.events_items (build_delivered depth ho hns)
    rw [close_eq_ok h]
    refine .group rfl ?_ fun c hc => (statements_items hgroup c (Event.mem_items.1 hc)).finished
    revert ho
    cases hk : opener.kind <;> simp [Kind.closer?, Node.into]

theorem grouped_delivered (depth : Nat) {es : Events Node} (hes : Items IsToken es) :
    Items Node.Delivered (group (fun n ns => (build limits depth n ns).events) none es) :=
  group_items (fun _ _ ho _ hns => Built.events_items (build_delivered depth ho hns)) (fun _ => IsToken.delivered) none es
    (by simp) hes

/-- The nodes of a scan are those of its tokens, comments apart, and of the end of the source. -/
theorem nodes_of_tokens {s : Scan} (ht : ∀ t ∈ s.tokens, t.kind.isComment = false → D (.ofToken t))
    (heof : ∀ pos, s.ending = .finished pos → D (.ofToken ⟨.eof, [], pos⟩)) : Items D (nodes s) := by
  intro n hn
  unfold nodes at hn
  split at hn
  · rename_i pos hpos
    obtain ⟨t, hmem, ⟨⟩⟩ := List.mem_map.1 hn
    obtain ⟨hmem, hcomment⟩ := List.mem_filter.1 hmem
    rcases List.mem_append.1 hmem with hmem | hmem
    · exact ht t hmem (by simpa using hcomment)
    · obtain rfl := List.mem_singleton.1 hmem
      exact heof pos hpos
  · rcases List.mem_append.1 hn with hn | hn
    · obtain ⟨t, hmem, ⟨⟩⟩ := List.mem_map.1 hn
      obtain ⟨hmem, hcomment⟩ := List.mem_filter.1 hmem
      exact ht t hmem (by simpa using hcomment)
    · simp at hn

theorem nodes_items (s : Scan) : Items IsToken (nodes s) :=
  nodes_of_tokens (fun t _ _ => ⟨t, rfl⟩) fun _ _ => ⟨_, rfl⟩

/-- Grouping the brackets of a whole source delivers tokens, leaves and groups of finished trees. -/
theorem groupAll_delivered (limits : Limits) (s : Scan) : Items Node.Delivered (groupAll limits (nodes s)) :=
  grouped_delivered limits.brackets (nodes_items s)

/-! ## Sorts of nodes and trees -/

/-- Sorts that fit together where trees are built: tokens of the sort `T` become nodes of the sort `I`, as do
brackets around trees of the sort `Q`, and statements of nodes of the sort `I` have trees of the sort `Q`. -/
structure Sorts (T I Q : Node → Prop) : Prop where
  token : ∀ {n : Node}, T n → IsToken n
  word : ∀ {n : Node}, T n → I n
  group : ∀ {opener : Node} {children : List Node}, T opener → opener.kind.closer?.isSome → (∀ c ∈ children, Q c) →
    I (opener.into opener.kind opener.text children)
  tree : ∀ {s : Statement} {t : Node}, (∀ m ∈ s, I m) → Statement.Derives s t → Q t

namespace Sorts

variable {I Q : Node → Prop} (h : Sorts T I Q)
include h

theorem item (hn : T n) : n.Delivered ∧ I n := ⟨(h.token hn).delivered, h.word hn⟩

theorem statements {es : Events Node} (hes : Items (fun n => n.Delivered ∧ I n) es) : Items Q (statements limits source es) :=
  (split_items [] es (by simp) fun n hn _ => hes n hn).each fun _ hs _ hn =>
    h.tree (fun m hm => (hs.2 m hm).2) (settle_derives (fun m hm => (hs.2 m hm).1) hn)

/-- At every level of brackets, what is built of tokens is a group of trees of the right sort. -/
theorem build : ∀ (depth : Nat) {opener : Node} {inner : List Node}, opener.kind.closer?.isSome → T opener →
    (∀ n ∈ inner, T n) → ∀ n, (build limits depth opener inner).result = .ok n → n.Delivered ∧ I n
  | 0, _, _, _, _, _, n, hn => by cases hn
  | depth + 1, opener, inner, ho, hopener, hi, n, hn => by
    refine ⟨build_delivered (depth + 1) ho (fun m hm => h.token (hi m hm)) n hn, ?_⟩
    have hgroup : Items (fun n => n.Delivered ∧ I n)
        (Tree.group (fun n ns => (Tree.build limits depth n ns).events) none (inner.map .item)) := by
      refine group_items (fun o ns ho hopener hns => ?_) (fun _ => h.item) none _ (by simp) (.map_item hi)
      exact Built.events_items (build depth ho hopener hns)
    rw [close_eq_ok hn]
    exact h.group hopener ho fun c hc => h.statements hgroup c (Event.mem_items.1 hc)

theorem grouped (depth : Nat) {es : Events Node} (hes : Items T es) :
    Items (fun n => n.Delivered ∧ I n) (Tree.group (fun n ns => (Tree.build limits depth n ns).events) none es) :=
  group_items (fun _ _ ho hopener hns => Built.events_items (h.build depth ho hopener hns)) (fun _ => h.item) none _
    (by simp) hes

end Sorts

end Tree

/-- The statements of a parsed source are trees of the right sort. -/
theorem Tree.Sorts.parse {T I Q : Node → Prop} (h : Tree.Sorts T I Q) {limits : Limits} {source text : Text} {n : Node}
    (hs : Event.Items T (Tree.nodes (scan source text))) (hn : (parse limits source text).result = .ok n) :
    ∀ c ∈ n.children, Q c := by
  intro c hc
  rw [Tree.close_eq_ok hn] at hc
  exact h.statements (h.grouped limits.brackets hs) c (Event.mem_items.1 hc)

end Kettle
