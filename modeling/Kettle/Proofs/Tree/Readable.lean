/-
The trees of sources, as they are written. Whatever a source is, and whatever was left out of it, the
trees of its statements are made of words that spell tokens, of brackets, and of operators with
operands that can stand there; with comma lists in groups, no operator takes a comma list.
-/
import Kettle.Proofs.Node.Render
import Kettle.Proofs.Statement.Rules
import Kettle.Proofs.Token.Layout
import Kettle.Proofs.Tree.Delivered

namespace Kettle

/-! ## Words -/

namespace Lexeme

/-- A text spells tokens of one kind only. -/
theorem Spells.kind_unique {k k' : Kind} {text : Text} (h : Spells k text) (h' : Spells k' text) : k = k' := by
  obtain ⟨r, more, rfl⟩ := List.exists_cons_of_ne_nil h.ne_nil
  have hread : read r (more ++ []) = .ok ⟨k, more, []⟩ := read_of_spells h (by simp [Ends])
  rw [read_of_spells h' (by simp [Ends])] at hread
  exact (congrArg Lexeme.kind (Except.ok.inj hread)).symm

/-- The text of an operator or a bracket of one rune, or of an operator of two. -/
theorem Spells.symbol {k : Kind} {text : Text} (h : Spells k text)
    (hk : k ∉ [Kind.ident, .number, .doubleQuoted, .singleQuoted, .backquoted, .hashComment, .slashComment]) :
    (∃ r, text = [r] ∧ (r, k) ∈ singles) ∨ ∃ r next, text = [r, next] ∧ ((r, next), k) ∈ doubles := by
  cases h with
  | @single r _ h => exact .inl ⟨r, rfl, h⟩
  | @double r next _ h => exact .inr ⟨r, next, rfl, h⟩
  | @string quote => cases quote <;> simp [Quote.kind] at hk
  | _ => simp at hk

/-- The operator in a compound assignment is spelled by all but its last rune. -/
theorem Spells.compound {k op : Kind} {text : Text} (h : Spells k text) (hk : k.compound? = some op) :
    Spells op text.dropLast := by
  have hsingles : ∀ s ∈ singles, s.2.compound? = none := by decide
  have hdoubles : ∀ d ∈ doubles, ∀ op, d.2.compound? = some op → (d.1.1, op) ∈ singles := by decide
  have hsymbol : k ∉ [Kind.ident, .number, .doubleQuoted, .singleQuoted, .backquoted, .hashComment, .slashComment] := by
    intro hmem
    have hnone : ∀ k ∈ [Kind.ident, .number, .doubleQuoted, .singleQuoted, .backquoted, .hashComment, .slashComment],
        k.compound? = none := by decide
    rw [hnone k hmem] at hk
    cases hk
  rcases h.symbol hsymbol with ⟨r, rfl, hr⟩ | ⟨r, next, rfl, hr⟩
  · rw [hsingles _ hr] at hk
    cases hk
  · exact .single (hdoubles _ hr op hk)

end Lexeme

namespace Node

/-- A node of a token that is no comment. -/
def IsWord (n : Node) : Prop :=
  ∃ t : Token, n = .ofToken t ∧ Lexeme.Spells t.kind t.text ∧ t.kind.isComment = false

/-- A tree that is no parenthesis around one expression. -/
def Settled (n : Node) : Prop := ∀ only, ¬ n.Encloses only

/-- The trees that are read back as they are written. -/
inductive Readable : Node → Prop where
  | leaf {n : Node} (hn : n.IsWord) (hr : n.resolved = true) : Readable n
  | group {n : Node} {closing : Text} (hr : n.resolved = true) (hk : writing n.kind = .brackets n.text closing)
      (hc : ∀ c ∈ n.children, Readable c) (hs : ∀ c ∈ n.children, c.Settled) : Readable n
  | function {fn params : Node} (hf : fn.IsWord) (hk : fn.isLoose .function = true) (hp : Readable params)
      (hpk : params.isResolved .lpar = true) : Readable (fn.into .function fn.text [params])
  | functionBody {fn params body : Node} (hf : fn.IsWord) (hk : fn.isLoose .function = true) (hp : Readable params)
      (hpk : params.isResolved .lpar = true) (hb : Readable body) (hbk : body.isResolved .lbrace = true) :
      Readable (fn.into .function fn.text [params, body])
  | call {f args : Node} (hf : Readable f) (hk : Statement.isCallee f = true) (ha : Readable args)
      (hak : args.isResolved .lpar = true) : Readable (f.into .apply "call" [f, args])
  | sign {op x : Node} {kind : Kind} (hop : op.IsWord) (hk : Statement.unary? op.kind = some kind) (hx : Readable x)
      (hsx : x.Settled) (hkx : x.kind ≠ .comma) : Readable (op.into kind op.text [x])
  | operation {op x y : Node} (hop : op.IsWord) (hk : op.kind ∈ operatorKinds) (hx : Readable x) (hsx : x.Settled)
      (hkx : x.kind ≠ .comma) (hy : Readable y) (hsy : y.Settled) (hky : y.kind ≠ .comma) :
      Readable (op.into op.kind op.text [x, y])
  | listing {op x y : Node} {more : List Node} (hop : op.IsWord) (hk : op.kind = .comma)
      (hc : ∀ c ∈ x :: y :: more, Readable c) (hs : ∀ c ∈ x :: y :: more, c.Settled)
      (hkc : ∀ c ∈ x :: y :: more, c.kind ≠ .comma) : Readable (op.into .comma op.text (x :: y :: more))
  | assign {op x y : Node} (hop : op.IsWord) (hk : op.kind = .assign) (hx : Readable x) (hsx : x.Settled)
      (hy : Readable y) (hsy : y.Settled) : Readable (op.into .assign op.text [x, y])
  | bareReturn {op : Node} (hop : op.IsWord) (hk : op.kind = .ret) : Readable (op.into .ret op.text [])
  | ret {op x : Node} (hop : op.IsWord) (hk : op.kind = .ret) (hx : Readable x) (hsx : x.Settled) :
      Readable (op.into .ret op.text [x])

variable {n : Node}

theorem IsWord.children (h : n.IsWord) : n.children = [] := by
  obtain ⟨t, rfl, -⟩ := h
  rfl

theorem IsWord.regroup_eq (h : n.IsWord) : n.regroup = n := by
  obtain ⟨t, rfl, -⟩ := h
  rfl

theorem IsWord.resolved_eq (h : n.IsWord) : n.resolved = isOperand n.kind := by
  obtain ⟨t, rfl, -⟩ := h
  rfl

/-- The kind of a word that is no keyword is the kind of its token. -/
theorem IsWord.spells (h : n.IsWord) (hk : n.kind ∉ [Kind.function, .ret, .brk, .cont]) :
    Lexeme.Spells n.kind n.text := by
  obtain ⟨t, rfl, ht, -⟩ := h
  have hkeywords : ∀ k ∈ keywords, k.2 ∈ [Kind.function, .ret, .brk, .cont] := by decide
  have hkind : kindOf t = t.kind := (kindOf_cases t).resolve_right fun hmem => hk (hkeywords _ hmem)
  show Lexeme.Spells (kindOf t) t.text
  rw [hkind]
  exact ht

theorem settled_of_kind (h : n.kind ≠ .lpar) : n.Settled := fun _ he => h (isResolved_iff.1 he.1).2

/-! ## Comma lists in groups -/

theorem regroup_into (n : Node) (kind : Kind) (text : Text) (children : List Node) :
    (n.into kind text children).regroup = n.into kind text (children.map fun c => encloseList kind c.regroup) := by
  simp [into, regroup, regroupAll_eq]

@[simp] theorem regroup_resolved (n : Node) : n.regroup.resolved = n.resolved := by cases n; rfl

@[simp] theorem regroup_text (n : Node) : n.regroup.text = n.text := by cases n; rfl

theorem regroup_children (n : Node) : n.regroup.children = n.children.map fun c => encloseList n.kind c.regroup := by
  cases n
  exact regroupAll_eq _ _

/-- The children of a node that takes no operands, or that takes comma lists bare, are not put into groups. -/
theorem regroup_children_of (h : wrapsLists n.kind = false) : n.regroup.children = n.children.map regroup := by
  rw [regroup_children]
  simp [encloseList_eq_self h]

@[simp] theorem regroup_isResolved (n : Node) (k : Kind) : n.regroup.isResolved k = n.isResolved k := by
  simp [isResolved]

@[simp] theorem regroup_isCallee (n : Node) : Statement.isCallee n.regroup = Statement.isCallee n := by
  simp [Statement.isCallee]

theorem regroup_function (fn : Node) (parts : List Node) :
    (fn.into .function fn.text parts).regroup = fn.into .function fn.text (parts.map regroup) := by
  rw [regroup_into]
  simp [encloseList_eq_self (show wrapsLists .function = false from rfl)]

/-- A tree whose writing can be read back, once its comma lists are in groups. -/
structure Kept (n : Node) : Prop where
  readable : n.regroup.Readable
  settled : n.regroup.Settled

theorem Settled.regroup (h : n.Settled) : n.regroup.Settled := by
  rintro only ⟨hk, hc, hcomma⟩
  rw [regroup_isResolved] at hk
  have hlists : wrapsLists n.kind = false := by rw [(isResolved_iff.1 hk).2]; rfl
  rw [regroup_children_of hlists] at hc
  obtain ⟨c, hchildren, rfl⟩ := List.map_eq_singleton_iff.1 hc
  exact h c ⟨hk, hchildren, by simpa using hcomma⟩

/-- An operand of an operator is no comma list, once comma lists are in groups. -/
theorem Kept.operand (h : n.Kept) {outer : Kind} (ho : wrapsLists outer = true) :
    (encloseList outer n.regroup).Readable ∧ (encloseList outer n.regroup).Settled ∧
      (encloseList outer n.regroup).kind ≠ .comma := by
  unfold encloseList
  by_cases hk : n.kind = .comma
  · rw [if_pos (by simp [ho, hk])]
    refine ⟨.group rfl rfl ?_ ?_, ?_, by simp [enclose]⟩
    · simpa [enclose] using h.readable
    · simpa [enclose] using h.settled
    · rintro only ⟨-, hc, hcomma⟩
      obtain rfl : n.regroup = only := by simpa [enclose] using hc
      exact hcomma (by simpa using hk)
  · rw [if_neg (by simp [hk])]
    exact ⟨h.readable, h.settled, by simpa using hk⟩

/-! ## Nodes of statements -/

/-- What a statement of a source is made of: words, and brackets around trees. -/
inductive Sourced : Node → Prop where
  | separator {n : Node} (h : Tree.isSeparator n = true) : Sourced n
  | word {n : Node} (h : n.IsWord) : Sourced n
  | group {n : Node} {closing : Text} (hr : n.resolved = true) (hk : writing n.kind = .brackets n.text closing)
      (hc : ∀ c ∈ n.children, c.Kept) : Sourced n

theorem Sourced.word_of_loose (h : n.Sourced) (hn : n.resolved = false)
    (hk : n.kind ≠ .separator ∧ n.kind ≠ .eof) : n.IsWord := by
  cases h with
  | separator h => exact absurd (isSeparator_loose h).2 (by simpa using hk)
  | word h => exact h
  | group hr => rw [hn] at hr; cases hr

theorem brackets_kind {k : Kind} {opening closing : Text} (h : writing k = .brackets opening closing) :
    k = .lpar ∨ k = .lbrace := by
  cases k <;> simp [writing] at h <;> simp

theorem Sourced.readable (h : n.Sourced) (hn : n.resolved = true) : n.regroup.Readable := by
  cases h with
  | separator h => rw [(isSeparator_loose h).1] at hn; cases hn
  | word h =>
    rw [h.regroup_eq]
    exact .leaf h hn
  | group hr hk hc =>
    have hlists : wrapsLists n.kind = false := by rcases brackets_kind hk with hk | hk <;> rw [hk] <;> rfl
    refine .group (by simpa using hr) (by simpa using hk) ?_ ?_
    · rw [regroup_children_of hlists]
      simpa using fun c hc' => (hc c hc').readable
    · rw [regroup_children_of hlists]
      simpa using fun c hc' => (hc c hc').settled

end Node

/-! ## Trees of the grammar -/

namespace Statement

open Node (Sourced Kept)

variable {s : Statement} {t : Node} {P : Phrases}

/-- The phrases of a sort, made of what statements of a source are made of, stand for trees that are
kept. -/
def YieldsKept (P : Phrases) : Prop := ∀ s t, (∀ m ∈ s, m.Sourced) → P s t → t.Kept

/-- The phrases of a sort stand for no comma lists. -/
def NoLists (P : Phrases) : Prop := ∀ s t, (∀ m ∈ s, m.Sourced) → P s t → t.kind ≠ .comma

theorem isCallee_iff {n : Node} : isCallee n = true ↔
    n.resolved = true ∧ n.kind ∈ [Kind.ident, .apply, .function, .lpar] := by
  simp [isCallee, or_assoc]

theorem Callee.readable (hI : ∀ m ∈ s, m.Sourced) (h : Callee s t) :
    t.regroup.Readable ∧ Statement.isCallee t = true := by
  cases h with
  | name hn =>
    have ht := Node.isResolved_iff.1 hn
    exact ⟨(hI t (by simp)).readable ht.1, isCallee_iff.2 ⟨ht.1, by simp [ht.2]⟩⟩
  | group hn =>
    have ht := Node.isResolved_iff.1 hn
    exact ⟨(hI t (by simp)).readable ht.1, isCallee_iff.2 ⟨ht.1, by simp [ht.2]⟩⟩
  | @function fn params hf hp =>
    have hfn := Node.isLoose_iff.1 hf
    have hword := (hI fn (by simp)).word_of_loose hfn.1 (by simp [hfn])
    have hparams := (hI params (by simp)).readable (Node.isResolved_iff.1 hp).1
    refine ⟨?_, isCallee_iff.2 ⟨rfl, by simp [Node.into]⟩⟩
    rw [Node.regroup_function]
    exact .function hword hf hparams (by simpa using hp)
  | @functionBody fn params body hf hp hb =>
    have hfn := Node.isLoose_iff.1 hf
    have hword := (hI fn (by simp)).word_of_loose hfn.1 (by simp [hfn])
    have hparams := (hI params (by simp)).readable (Node.isResolved_iff.1 hp).1
    have hbody := (hI body (by simp)).readable (Node.isResolved_iff.1 hb).1
    refine ⟨?_, isCallee_iff.2 ⟨rfl, by simp [Node.into]⟩⟩
    rw [Node.regroup_function]
    exact .functionBody hword hf hparams (by simpa using hp) hbody (by simpa using hb)

theorem Calls.readable (hI : ∀ m ∈ s, m.Sourced) (h : Calls s t) :
    t.regroup.Readable ∧ Statement.isCallee t = true := by
  induction h with
  | callee h => exact h.readable hI
  | @call s f args _ ha ih =>
    obtain ⟨hf, hcallee⟩ := ih fun m hm => hI m (by simp [hm])
    have hargs := (hI args (by simp)).readable (Node.isResolved_iff.1 ha).1
    have hpos : (f.into .apply "call" [f, args]).regroup = f.regroup.into .apply "call" [f.regroup, args.regroup] := by
      rw [Node.regroup_into]
      cases f
      rfl
    refine ⟨?_, isCallee_iff.2 ⟨rfl, by simp [Node.into]⟩⟩
    rw [hpos]
    exact .call hf (by simpa using hcallee) hargs (by simpa using ha)

theorem primary_kept : YieldsKept Primary := by
  intro s t hI h
  cases h with
  | @leaf n hn hk =>
    refine ⟨(hI t (by simp)).readable hn, Node.settled_of_kind ?_⟩
    rw [Node.regroup_kind]
    rintro hlpar
    rw [hlpar] at hk
    exact absurd hk (by decide)
  | callable h ht => exact ⟨(h.readable hI).1, Node.Settled.regroup ht⟩
  | @enclosed n only h =>
    obtain ⟨hn, hc, -⟩ := h
    have hlpar := Node.isResolved_iff.1 hn
    cases hI n (by simp) with
    | separator hsep => rw [(Node.isSeparator_loose hsep).1] at hlpar; cases hlpar.1
    | word hword => rw [hword.children] at hc; cases hc
    | group _ _ hkept => exact hkept t (by simp [hc])

theorem primary_noLists : NoLists Primary := by
  intro s t hI h
  cases h with
  | leaf _ hk => rintro hcomma; rw [hcomma] at hk; exact absurd hk (by decide)
  | callable h =>
    have hk := (isCallee_iff.1 (h.readable hI).2).2
    rintro hcomma
    rw [hcomma] at hk
    exact absurd hk (by decide)
  | enclosed h => exact h.2.2

/-- A node that an operator with one operand makes. -/
theorem kept_sign {op x : Node} {kind : Kind} (hop : op.IsWord) (hk : unary? op.kind = some kind) (hx : x.Kept) :
    (op.into kind op.text [x]).Kept := by
  have hkind : kind = .not ∨ kind = .neg := by
    revert hk
    cases op.kind <;> simp [unary?] <;> rintro rfl <;> simp
  have hlists : Node.wrapsLists kind = true := by rcases hkind with rfl | rfl <;> rfl
  obtain ⟨hreadable, hsettled, hcomma⟩ := hx.operand hlists
  refine ⟨?_, Node.settled_of_kind ?_⟩
  · rw [Node.regroup_into]
    exact .sign hop hk hreadable hsettled hcomma
  · rw [Node.regroup_kind]
    rcases hkind with rfl | rfl <;> simp [Node.into]

theorem YieldsKept.signed (hP : YieldsKept P) : YieldsKept (Signed P) := by
  intro s t hI h
  induction h with
  | operand h => exact hP _ _ hI h
  | @not op s t hop _ ih =>
    have ho := Node.isLoose_iff.1 hop
    have hword := (hI op (by simp)).word_of_loose ho.1 (by simp [ho])
    exact kept_sign hword (by simp [ho, unary?]) (ih fun m hm => hI m (by simp [hm]))
  | @minus op s t hop _ ih =>
    have ho := Node.isLoose_iff.1 hop
    have hword := (hI op (by simp)).word_of_loose ho.1 (by simp [ho])
    exact kept_sign hword (by simp [ho, unary?]) (ih fun m hm => hI m (by simp [hm]))

theorem NoLists.signed (hP : NoLists P) : NoLists (Signed P) := by
  intro s t hI h
  cases h with
  | operand h => exact hP _ _ hI h
  | not => simp [Node.into]
  | minus => simp [Node.into]

/-- A node that an operator between two operands makes. -/
theorem kept_operation {op x y : Node} (hop : op.IsWord) (hk : op.kind ∈ Node.operatorKinds) (hx : x.Kept)
    (hy : y.Kept) : (op.into op.kind op.text [x, y]).Kept := by
  have hall : ∀ k ∈ Node.operatorKinds, Node.wrapsLists k = true ∧ k ≠ .lpar := by decide
  obtain ⟨hreadable, hsettled, hcomma⟩ := hx.operand (hall _ hk).1
  obtain ⟨hreadable', hsettled', hcomma'⟩ := hy.operand (hall _ hk).1
  refine ⟨?_, Node.settled_of_kind ?_⟩
  · rw [Node.regroup_into]
    exact .operation hop hk hreadable hsettled hcomma hreadable' hsettled' hcomma'
  · rw [Node.regroup_kind]
    exact (hall _ hk).2

theorem YieldsKept.chain (hP : YieldsKept P) {ops : List Kind} (hops : ops ⊆ Node.operatorKinds) :
    YieldsKept (Chain ops P) := by
  have hall : ∀ k ∈ Node.operatorKinds, k ≠ .separator ∧ k ≠ .eof := by decide
  intro s t hI h
  induction h with
  | single h => exact hP _ _ hI h
  | @more s s' x op y _ hop hk hy ih =>
    have hword := (hI op (by simp)).word_of_loose hop (hall _ (hops hk))
    exact kept_operation hword (hops hk) (ih (forall_left hI)) (hP _ _ (forall_right hI) hy)

theorem NoLists.chain (hP : NoLists P) {ops : List Kind} (hops : ops ⊆ Node.operatorKinds) : NoLists (Chain ops P) := by
  intro s t hI h
  cases h with
  | single h => exact hP _ _ hI h
  | more _ _ hk => rintro hcomma; exact absurd (hops (hcomma ▸ hk)) (by decide)

theorem YieldsKept.tiers (hP : YieldsKept P) : YieldsKept (Tiers P) :=
  YieldsKept.chain (YieldsKept.chain (YieldsKept.chain (YieldsKept.chain hP (by decide)) (by decide)) (by decide))
    (by decide)

theorem NoLists.tiers (hP : NoLists P) : NoLists (Tiers P) :=
  NoLists.chain (NoLists.chain (NoLists.chain (NoLists.chain hP (by decide)) (by decide)) (by decide)) (by decide)

/-- The elements of a comma list are kept, and so is its first comma. -/
theorem YieldsKept.elements (hP : YieldsKept P) (hL : NoLists P) {c : Node} {xs : List Node}
    (hI : ∀ m ∈ s, m.Sourced) (h : Elements P s c xs) :
    c.IsWord ∧ c.kind = .comma ∧ (∃ x y more, xs = x :: y :: more) ∧ ∀ x ∈ xs, x.Kept ∧ x.kind ≠ .comma := by
  induction h with
  | @two s s' x c y hs hc hy =>
    have hcomma := Node.isLoose_iff.1 hc
    have hx := (forall_left hI)
    have hy' := (forall_right hI)
    refine ⟨(hI c (by simp)).word_of_loose hcomma.1 (by simp [hcomma]), hcomma.2, ⟨x, y, [], rfl⟩, ?_⟩
    simpa using ⟨⟨hP _ _ hx hs, hL _ _ hx hs⟩, hP _ _ hy' hy, hL _ _ hy' hy⟩
  | @more s s' first c y xs _ hc hy ih =>
    obtain ⟨hword, hkind, ⟨x, x', more, rfl⟩, hxs⟩ := ih (forall_left hI)
    refine ⟨hword, hkind, ⟨x, x', more ++ [y], rfl⟩, fun z hz => ?_⟩
    rcases List.mem_append.1 hz with hz | hz
    · exact hxs z hz
    · rw [List.mem_singleton.1 hz]
      exact ⟨hP _ _ (forall_right hI) hy, hL _ _ (forall_right hI) hy⟩

theorem YieldsKept.listing (hP : YieldsKept P) (hL : NoLists P) : YieldsKept (Listing P) := by
  intro s t hI h
  cases h with
  | single h => exact hP _ _ hI h
  | @many _ c xs h =>
    obtain ⟨hword, hkind, ⟨x, y, more, rfl⟩, hxs⟩ := hP.elements hL hI h
    refine ⟨?_, Node.settled_of_kind (by simp [Node.into])⟩
    have hmap : ∀ z ∈ x :: y :: more, Node.encloseList .comma z.regroup = z.regroup := fun z hz => by
      simp [Node.encloseList, (hxs z hz).2]
    rw [Node.regroup_into, List.map_congr_left hmap]
    refine .listing hword hkind ?_ ?_ ?_
    · exact List.forall_mem_map.2 fun z hz => (hxs z hz).1.readable
    · exact List.forall_mem_map.2 fun z hz => (hxs z hz).1.settled
    · intro c hc
      have hmem : c ∈ (x :: y :: more).map Node.regroup := hc
      obtain ⟨z, hz, rfl⟩ := List.mem_map.1 hmem
      simpa using (hxs z hz).2

/-- A node that assigns. -/
theorem kept_assign {op x y : Node} (hop : op.IsWord) (hk : op.kind = .assign) (hx : x.Kept) (hy : y.Kept) :
    (op.into .assign op.text [x, y]).Kept := by
  refine ⟨?_, Node.settled_of_kind (by simp [Node.into])⟩
  rw [Node.regroup_into]
  exact .assign hop hk hx.readable hx.settled hy.readable hy.settled

/-- A compound assignment is an assignment of an operation. -/
theorem kept_assigned {op x y : Node} (hop : op.IsWord) (hk : op.kind ∈ assignKinds) (hx : x.Kept) (hy : y.Kept) :
    (assigned x op y).Kept := by
  unfold assigned
  split
  · rename_i k hcompound
    have hkeyword : op.kind ∉ [Kind.function, .ret, .brk, .cont] := by
      revert hk
      cases op.kind <;> decide
    have hkind : k ∈ Node.operatorKinds := by
      revert hcompound
      cases op.kind <;> simp [Kind.compound?] <;> rintro rfl <;> decide
    -- the words that a written out assignment would have
    have hequals : Lexeme.Spells .assign "=" := .single (by decide)
    have heq : (Node.ofToken ⟨.assign, "=", op.pos⟩).IsWord := ⟨_, rfl, hequals, rfl⟩
    have hall : ∀ k ∈ Node.operatorKinds, k ≠ .ident ∧ k.isComment = false := by decide
    have hident := hall k hkind
    have hoperator : (Node.ofToken ⟨k, op.text.dropLast, op.pos⟩).IsWord :=
      ⟨_, rfl, (hop.spells hkeyword).compound hcompound, hident.2⟩
    have hkindOf : (Node.ofToken ⟨k, op.text.dropLast, op.pos⟩).kind = k := by
      simp [Node.ofToken, Node.kindOf, hident.1]
    have hvalue := kept_operation hoperator (by rw [hkindOf]; exact hkind) hx hy
    rw [hkindOf] at hvalue
    exact kept_assign heq rfl hx hvalue
  · rename_i hcompound
    refine kept_assign hop ?_ hx hy
    revert hk hcompound
    cases op.kind <;> decide

theorem YieldsKept.assigning (hP : YieldsKept P) : YieldsKept (Assigning assigned P) := by
  have hall : ∀ k ∈ assignKinds, k ≠ .separator ∧ k ≠ .eof := by decide
  intro s t hI h
  induction h with
  | single h => exact hP _ _ hI h
  | @more s s' x op y hs hop hk _ ih =>
    have hword := (hI op (by simp)).word_of_loose hop (hall _ hk)
    exact kept_assigned hword hk (hP _ _ (forall_left hI) hs) (ih (forall_right hI))

theorem YieldsKept.returning (hP : YieldsKept P) : YieldsKept (Returning P) := by
  intro s t hI h
  induction h with
  | plain h => exact hP _ _ hI h
  | @bare n hn =>
    have hret := Node.isLoose_iff.1 hn
    have hword := (hI n (by simp)).word_of_loose hret.1 (by simp [hret])
    exact ⟨.bareReturn hword hret.2, Node.settled_of_kind (by simp [Node.into])⟩
  | @operand n s t hn _ ih =>
    have hret := Node.isLoose_iff.1 hn
    have hword := (hI n (by simp)).word_of_loose hret.1 (by simp [hret])
    have ht := ih fun m hm => hI m (by simp [hm])
    refine ⟨?_, Node.settled_of_kind (by simp [Node.into])⟩
    rw [Node.regroup_into]
    exact .ret hword hret.2 ht.readable ht.settled

/-- The tree of a statement of a source is kept. -/
theorem derives_kept : YieldsKept Derives :=
  (primary_kept.signed.tiers.listing primary_noLists.signed.tiers).assigning.returning

end Statement

/-! ## Trees of sources -/

namespace Tree

open Event (Items)
open Node (Sourced Kept)

variable {n : Node}

/-- A node of a token of a source. -/
structure IsSource (n : Node) : Prop where
  token : IsToken n
  word : isSeparator n = true ∨ n.IsWord

theorem nodes_source (source text : Text) : Items IsSource (nodes (scan source text)) := by
  obtain ⟨pieces, tail, rest, hlayout, hfollows⟩ := Scan.scanFrom_layout source text .start none [] (Scan.dropped_nil _)
  have htoken : ∀ t ∈ (scan source text).tokens, t.kind.isComment = false → IsSource (.ofToken t) := by
    intro t ht hcomment
    have hmem : t ∈ Piece.tokens pieces := hfollows.tokens_eq ▸ ht
    obtain ⟨p, hp, rfl⟩ := List.mem_map.1 hmem
    obtain ⟨before, after, hsplit⟩ := List.append_of_mem hp
    have hstands := hlayout.stands before p after hsplit
    generalize p.token = t at hstands hcomment
    cases hstands with
    | lexeme h => exact ⟨⟨t, rfl⟩, .inr ⟨t, rfl, h.spells, hcomment⟩⟩
    | lineBreak => exact ⟨⟨_, rfl⟩, .inl rfl⟩
  exact nodes_of_tokens htoken fun pos _ => ⟨⟨_, rfl⟩, .inl rfl⟩

/-- An opening bracket of a source has the text of its sort. -/
theorem IsSource.brackets (h : IsSource n) (hk : n.kind.closer?.isSome) :
    ∃ closing, Node.writing n.kind = .brackets n.text closing := by
  have hkind : n.kind = .lpar ∨ n.kind = .lbrace := by
    revert hk
    cases n.kind <;> simp [Kind.closer?]
  rcases h.word with hsep | hword
  · rcases (Node.isSeparator_loose hsep).2 with hs | hs <;> rw [hs] at hkind <;> simp at hkind
  · have hspells := hword.spells (by rcases hkind with hk | hk <;> rw [hk] <;> decide)
    have hsymbol := hspells.symbol (by rcases hkind with hk | hk <;> rw [hk] <;> decide)
    have hsingles : ∀ s ∈ Lexeme.singles, (s.2 = .lpar → s.1 = '(') ∧ (s.2 = .lbrace → s.1 = '\x7b') := by decide
    have hdoubles : ∀ d ∈ Lexeme.doubles, ¬ (d.2 = .lpar ∨ d.2 = .lbrace) := by decide
    rcases hsymbol with ⟨r, htext, hr⟩ | ⟨r, next, htext, hr⟩
    · rcases hkind with hk | hk
      · obtain rfl := (hsingles _ hr).1 hk
        exact ⟨_, by rw [hk, htext]; rfl⟩
      · obtain rfl := (hsingles _ hr).2 hk
        exact ⟨_, by rw [hk, htext]; rfl⟩
    · exact absurd hkind (hdoubles _ hr)

/-- Brackets of a source are made around trees that are kept, and statements of a source have such trees. -/
theorem sorts_kept : Sorts IsSource Sourced Kept where
  token h := h.token
  word h := h.word.elim .separator .word
  group h hk hc := by
    obtain ⟨closing, hclosing⟩ := h.brackets hk
    exact .group rfl hclosing hc
  tree hI h := Statement.derives_kept _ _ hI h

end Tree

/-- The statements of a parsed source are kept. -/
theorem parse_kept {limits : Limits} {source text : Text} {n : Node}
    (h : (parse limits source text).result = .ok n) : ∀ c ∈ n.children, c.Kept :=
  Tree.sorts_kept.parse (Tree.nodes_source source text) h

end Kettle
