/-
Where the nodes of a tree come from. Leaves, operators, `fn` and `return` stand at their own tokens, groups at
the brackets that open them, calls where their callees stand, comma lists at their first commas, and both nodes
of a compound assignment at its token. Tokens come in the order of their positions, and what is made of the
nodes on one side of a token stays on that side; that tells the token of a node from others of its kind.
Complaints stand at tokens too. The end of the source and other separators leave no trace.
-/
import Kettle.Proofs.Statement.Rules
import Kettle.Proofs.Token.Position
import Kettle.Proofs.Tree.Halt

namespace Kettle

/-! ## Nodes and their tokens -/

namespace Node

/-- All of a tree is before a position. -/
def Ahead (p : Position) (n : Node) : Prop := ∀ m ∈ n.preorder, m.pos.before p = true

/-- All of a tree is behind a position. -/
def Behind (p : Position) (n : Node) : Prop := ∀ m ∈ n.preorder, p.before m.pos = true

/-- A node stands where it should among some tokens: at its own one, with what it is made of on the right sides of
it; a call at its callee; and an assignment that is written out, with the operation in it, at the token it was. -/
inductive Sited (ts : List Token) : Node → Prop where
  | leaf {t : Token} (ht : t ∈ ts) (hk : isOperand (kindOf t) = true) : Sited ts (ofToken t)
  | keyword {t : Token} {children : List Node} (ht : t ∈ ts) (hk : kindOf t = .function ∨ kindOf t = .ret)
      (hc : ∀ c ∈ children, c.Behind t.pos) : Sited ts ⟨kindOf t, t.text, children, true, t.pos⟩
  | group {t : Token} {children : List Node} (ht : t ∈ ts) (hk : (kindOf t).closer?.isSome)
      (hc : ∀ c ∈ children, c.Behind t.pos) : Sited ts ⟨kindOf t, t.text, children, true, t.pos⟩
  | sign {t : Token} {kind : Kind} {x : Node} (ht : t ∈ ts) (hk : Statement.unary? (kindOf t) = some kind)
      (hx : x.Behind t.pos) : Sited ts ⟨kind, t.text, [x], true, t.pos⟩
  | operator {t : Token} {x y : Node} (ht : t ∈ ts) (hk : kindOf t ∈ operatorKinds ∨ kindOf t = .assign)
      (hx : x.Ahead t.pos) (hy : y.Behind t.pos) : Sited ts ⟨kindOf t, t.text, [x, y], true, t.pos⟩
  /-- The first comma of a list is the one behind its first element. -/
  | comma {t : Token} {x : Node} {more : List Node} (ht : t ∈ ts) (hk : kindOf t = .comma) (hx : x.Ahead t.pos)
      (hmore : ∀ y ∈ more, y.Behind t.pos) : Sited ts ⟨.comma, t.text, x :: more, true, t.pos⟩
  | call {callee args : Node} : Sited ts ⟨.apply, "call", [callee, args], true, callee.pos⟩
  | compound {t : Token} {k : Kind} {x y : Node} (ht : t ∈ ts) (hk : (kindOf t).compound? = some k)
      (hx : x.Ahead t.pos) (hy : y.Behind t.pos) :
      Sited ts ⟨.assign, "=", [x, ⟨k, t.text.dropLast, [x, y], true, t.pos⟩], true, t.pos⟩
  | computed {t : Token} {k : Kind} {x y : Node} (ht : t ∈ ts) (hk : (kindOf t).compound? = some k)
      (hx : x.Ahead t.pos) (hy : y.Behind t.pos) : Sited ts ⟨k, t.text.dropLast, [x, y], true, t.pos⟩

/-- The positions in a tree. A separator is part of no tree, and so it has none. -/
def sites (n : Node) : List Position := if Tree.isSeparator n then [] else n.preorder.map Node.pos

/-- What a statement is made of: tokens, and operands whose nodes stand where they should. -/
structure Rooted (ts : List Token) (n : Node) : Prop where
  kept : Tree.isSeparator n = false
  token : n.resolved = false → ∃ t ∈ ts, n = .ofToken t
  sited : n.resolved = true → ∀ m ∈ n.preorder, m.Sited ts

variable {n m : Node}

theorem sites_eq (h : Tree.isSeparator n = false) : n.sites = n.preorder.map Node.pos := by
  simp [sites, h]

theorem mem_sites (h : Tree.isSeparator n = false) (hm : m ∈ n.preorder) : m.pos ∈ n.sites := by
  rw [sites_eq h]
  exact List.mem_map_of_mem hm

theorem pos_mem_sites (h : Tree.isSeparator n = false) : n.pos ∈ n.sites := mem_sites h n.mem_preorder_self

theorem isSeparator_of_resolved (h : n.resolved = true) : Tree.isSeparator n = false := by
  simp [Tree.isSeparator, isLoose, h]

theorem isSeparator_of_opening (h : n.kind.closer?.isSome) : Tree.isSeparator n = false := by
  cases hs : Tree.isSeparator n with
  | false => rfl
  | true =>
    rcases (isSeparator_loose hs).2 with hk | hk <;> rw [hk] at h <;> cases h

theorem preorder_ofToken (t : Token) : (ofToken t).preorder = [ofToken t] := by
  rw [preorder_eq]
  rfl

theorem sites_ofToken {t : Token} {p : Position} (h : p ∈ (ofToken t).sites) : p = t.pos := by
  unfold sites at h
  split at h
  · cases h
  · rw [preorder_ofToken] at h
    exact List.mem_singleton.1 h

end Node

/-! ## Statements in order -/

namespace Statement

open Node (Sited Rooted preorderAll mem_preorderAll)

variable {ts : List Token} {s s' : Statement} {op x : Node} {xs ys : List Node} {p : Position}

/-- The positions in a statement. -/
def sites (s : Statement) : List Position := s.flatMap Node.sites

/-- The nodes of a statement come in the order of their positions. -/
def Ordered (s : Statement) : Prop := s.Pairwise fun n m => ∀ p ∈ n.sites, ∀ q ∈ m.sites, p.before q = true

theorem mem_sites_iff : p ∈ sites s ↔ ∃ n ∈ s, p ∈ n.sites := List.mem_flatMap

theorem sites_mono (h : s.Sublist s') (hp : p ∈ sites s) : p ∈ sites s' := by
  obtain ⟨n, hn, hp⟩ := mem_sites_iff.1 hp
  exact mem_sites_iff.2 ⟨n, h.subset hn, hp⟩

theorem Ordered.mono (h : Ordered s') (hs : s.Sublist s') : Ordered s := List.Pairwise.sublist hs h

/-- Trees stand in a statement: their nodes are at positions of it, and if it is in order, each stands where it
should. -/
structure Stands (ts : List Token) (s : Statement) (xs : List Node) : Prop where
  within : ∀ m ∈ preorderAll xs, m.pos ∈ sites s
  sited : Ordered s → ∀ m ∈ preorderAll xs, m.Sited ts

namespace Stands

theorem mono (h : Stands ts s xs) (hs : s.Sublist s') : Stands ts s' xs :=
  ⟨fun m hm => sites_mono hs (h.within m hm), fun ho => h.sited (ho.mono hs)⟩

theorem append (h : Stands ts s xs) (h' : Stands ts s ys) : Stands ts s (xs ++ ys) := by
  have hmem : ∀ m ∈ preorderAll (xs ++ ys), m ∈ preorderAll xs ∨ m ∈ preorderAll ys := by
    intro m hm
    simp only [mem_preorderAll, List.mem_append] at hm ⊢
    obtain ⟨n, hn | hn, hm⟩ := hm
    · exact .inl ⟨n, hn, hm⟩
    · exact .inr ⟨n, hn, hm⟩
  refine ⟨fun m hm => ?_, fun ho m hm => ?_⟩
  · exact (hmem m hm).elim (h.within m) (h'.within m)
  · exact (hmem m hm).elim (h.sited ho m) (h'.sited ho m)

/-- Trees under a node that stands where it should. -/
theorem into (h : Stands ts s xs) {kind : Kind} {text : Text} (hpos : op.pos ∈ sites s)
    (hop : Ordered s → (op.into kind text xs).Sited ts) : Stands ts s [op.into kind text xs] := by
  have hmem : ∀ m ∈ preorderAll [op.into kind text xs], m = op.into kind text xs ∨ m ∈ preorderAll xs := by
    intro m hm
    rw [mem_preorderAll] at hm
    obtain ⟨n, hn, hm⟩ := hm
    rw [List.mem_singleton.1 hn, Node.preorder_eq] at hm
    exact List.mem_cons.1 hm
  refine ⟨fun m hm => ?_, fun ho m hm => ?_⟩
  · rcases hmem m hm with rfl | hm
    · exact hpos
    · exact h.within m hm
  · rcases hmem m hm with rfl | hm
    · exact hop ho
    · exact h.sited ho m hm

theorem behind (h : Stands ts s xs) (hop : Tree.isSeparator op = false) (ho : Ordered (op :: s)) :
    ∀ y ∈ xs, y.Behind op.pos := by
  intro y hy m hm
  obtain ⟨n, hn, hp⟩ := mem_sites_iff.1 (h.within m (mem_preorderAll.2 ⟨y, hy, hm⟩))
  exact (List.pairwise_cons.1 ho).1 n hn _ (Node.pos_mem_sites hop) _ hp

theorem ahead (h : Stands ts s [x]) (hop : Tree.isSeparator op = false) (ho : Ordered (s ++ op :: s')) :
    x.Ahead op.pos := by
  intro m hm
  obtain ⟨n, hn, hp⟩ := mem_sites_iff.1 (h.within m (mem_preorderAll.2 ⟨x, by simp, hm⟩))
  exact (List.pairwise_append.1 ho).2.2 n hn op (by simp) _ hp _ (Node.pos_mem_sites hop)

/-- A token with all its operands behind it. -/
theorem under (h : Stands ts s xs) {kind : Kind} {text : Text} (hop : Tree.isSeparator op = false)
    (hsited : (∀ y ∈ xs, y.Behind op.pos) → (op.into kind text xs).Sited ts) :
    Stands ts (op :: s) [op.into kind text xs] := by
  refine (h.mono (List.sublist_cons_self op s)).into ?_ fun ho => hsited (h.behind hop ho)
  exact mem_sites_iff.2 ⟨op, by simp, Node.pos_mem_sites hop⟩

/-- A token between its first operand and the others. -/
theorem between (hx : Stands ts s [x]) (hy : Stands ts s' ys) {kind : Kind} {text : Text}
    (hop : Tree.isSeparator op = false)
    (hsited : x.Ahead op.pos → (∀ y ∈ ys, y.Behind op.pos) → (op.into kind text (x :: ys)).Sited ts) :
    Stands ts (s ++ op :: s') [op.into kind text (x :: ys)] := by
  have hleft : s.Sublist (s ++ op :: s') := List.sublist_append_left _ _
  have hcons : (op :: s').Sublist (s ++ op :: s') := List.sublist_append_right _ _
  have hright : s'.Sublist (s ++ op :: s') := (List.sublist_cons_self op s').trans hcons
  refine ((hx.mono hleft).append (hy.mono hright)).into ?_ fun ho => ?_
  · exact mem_sites_iff.2 ⟨op, by simp, Node.pos_mem_sites hop⟩
  · exact hsited (hx.ahead hop ho) (hy.behind hop (ho.mono hcons))

end Stands

/-! ## The rules of the grammar -/

/-- An operand among the nodes of a statement stands in it. -/
theorem stands_operand {n : Node} (h : n.Rooted ts) (hn : n.resolved = true) : Stands ts [n] [n] := by
  have hmem : ∀ m ∈ preorderAll [n], m ∈ n.preorder := by simp [preorderAll]
  refine ⟨fun m hm => ?_, fun _ m hm => h.sited hn m (hmem m hm)⟩
  exact mem_sites_iff.2 ⟨n, by simp, Node.mem_sites h.kept (hmem m hm)⟩

theorem stands_group {n : Node} {k : Kind} (h : n.Rooted ts) (hn : n.isResolved k = true) : Stands ts [n] [n] :=
  stands_operand h (Node.isResolved_iff.1 hn).1

theorem Callee.stands {t : Node} (hI : ∀ m ∈ s, m.Rooted ts) (h : Callee s t) : Stands ts s [t] := by
  cases h with
  | name hn => exact stands_group (hI t (by simp)) hn
  | group hn => exact stands_group (hI t (by simp)) hn
  | @function fn params hf hp =>
    obtain ⟨hloose, hk⟩ := Node.isLoose_iff.1 hf
    have hparams := stands_group (hI params (by simp)) hp
    have hfn := hI fn (by simp)
    obtain ⟨t, ht, rfl⟩ := hfn.token hloose
    refine hparams.under hfn.kept fun hc => ?_
    rw [← hk]
    exact .keyword ht (.inl hk) hc
  | @functionBody fn params body hf hp hb =>
    obtain ⟨hloose, hk⟩ := Node.isLoose_iff.1 hf
    have hparams := stands_group (hI params (by simp)) hp
    have hbody := stands_group (hI body (by simp)) hb
    have hfn := hI fn (by simp)
    obtain ⟨t, ht, rfl⟩ := hfn.token hloose
    have hboth : Stands ts [params, body] [params, body] := by
      have hfirst : Stands ts [params, body] [params] := hparams.mono (by simp)
      exact hfirst.append (hbody.mono (by simp))
    refine hboth.under hfn.kept fun hc => ?_
    rw [← hk]
    exact .keyword ht (.inl hk) hc

/-- The first comma of a list is between its first element and the others. -/
theorem Elements.split_first {P : Phrases} {c : Node}
    (h : Elements (fun s t => Stands ts s [t] ∧ P s t) s c xs) :
    ∃ s₁ s₂ x more, s = s₁ ++ c :: s₂ ∧ xs = x :: more ∧ c.isLoose .comma = true ∧
      Stands ts s₁ [x] ∧ Stands ts s₂ more := by
  induction h with
  | @two s s' x c y hs hc hy => exact ⟨s, s', x, [y], rfl, rfl, hc, hs.1, hy.1⟩
  | @more s s' first c y xs _ _ hy ih =>
    obtain ⟨s₁, s₂, x, more, rfl, rfl, hfirst, hx, hmore⟩ := ih
    refine ⟨s₁, s₂ ++ c :: s', x, more ++ [y], by simp, rfl, hfirst, hx, ?_⟩
    have hright : s'.Sublist (s₂ ++ c :: s') := (List.sublist_cons_self c s').trans (List.sublist_append_right _ _)
    exact (hmore.mono (List.sublist_append_left _ _)).append (hy.1.mono hright)

theorem stands_assigned {y : Node} (hop : op.Rooted ts) (hloose : op.resolved = false) (hk : op.kind ∈ assignKinds)
    (hx : Stands ts s [x]) (hy : Stands ts s' [y]) : Stands ts (s ++ op :: s') [assigned x op y] := by
  obtain ⟨t, ht, rfl⟩ := hop.token hloose
  unfold assigned
  split
  · rename_i k hcompound
    -- the operation comes first: the assignment around it has its target and the operation below it
    have hcomputed : Stands ts (s ++ .ofToken t :: s') [(Node.ofToken t).into k t.text.dropLast [x, y]] :=
      hx.between hy hop.kept fun hx hy => .computed ht hcompound hx (hy y (by simp))
    refine ((hx.mono (List.sublist_append_left _ _)).append hcomputed).into ?_ fun ho => ?_
    · exact mem_sites_iff.2 ⟨_, by simp, Node.pos_mem_sites hop.kept⟩
    · have hcons := ho.mono (List.sublist_append_right s (.ofToken t :: s'))
      exact .compound ht hcompound (hx.ahead hop.kept ho) (hy.behind hop.kept hcons y (by simp))
  · rename_i hcompound
    have hassign : (Node.ofToken t).kind = .assign := by
      revert hk hcompound
      cases (Node.ofToken t).kind <;> simp [assignKinds, Kind.compound?]
    refine hx.between hy hop.kept fun hx hy => ?_
    rw [← hassign]
    exact .operator ht (.inr hassign) hx (hy y (by simp))

/-- Every rule of the grammar puts its node where it should stand. -/
theorem stands_ruleClosed (ts : List Token) : RuleClosed (Rooted ts) fun s t => Stands ts s [t] where
  leaf h hn _ := stands_operand h hn
  callee hI h := h.stands hI
  call := by
    intro s f args hf _ hargs hlpar
    have hboth := (hf.mono (List.sublist_append_left s [args])).append
      ((stands_group hargs hlpar).mono (List.sublist_append_right s [args]))
    refine hboth.into (hboth.within f ?_) fun _ => .call
    exact mem_preorderAll.2 ⟨f, by simp, f.mem_preorder_self⟩
  enclosed := by
    rintro n only h ⟨hn, hc, -⟩
    have hgroup := stands_group h hn
    have hmem : ∀ m ∈ preorderAll [only], m ∈ preorderAll [n] := by
      intro m hm
      rw [mem_preorderAll] at hm ⊢
      obtain ⟨c, hc', hm⟩ := hm
      rw [List.mem_singleton.1 hc'] at hm
      exact ⟨n, by simp, Node.mem_preorder_child (by simp [hc]) hm⟩
    exact ⟨fun m hm => hgroup.within m (hmem m hm), fun ho m hm => hgroup.sited ho m (hmem m hm)⟩
  sign := by
    intro op t kind s hop hloose hk ht
    obtain ⟨u, hu, rfl⟩ := hop.token hloose
    exact ht.under hop.kept fun hc => .sign hu hk (hc t (by simp))
  operation := by
    intro s s' x op y hx hop hloose hk hy
    obtain ⟨u, hu, rfl⟩ := hop.token hloose
    exact hx.between hy hop.kept fun hx hy => .operator hu (.inl hk) hx (hy y (by simp))
  commaList := by
    intro s c xs hI h
    obtain ⟨s₁, s₂, x, more, rfl, rfl, hc, hx, hmore⟩ := h.split_first
    obtain ⟨hloose, hk⟩ := Node.isLoose_iff.1 hc
    have hcomma := hI c (by simp)
    obtain ⟨u, hu, rfl⟩ := hcomma.token hloose
    exact hx.between hmore hcomma.kept fun hx hmore => .comma hu hk hx hmore
  assign hx hop hloose hk hy := stands_assigned hop hloose hk hx hy
  bare := by
    intro n hn hret
    obtain ⟨hloose, hk⟩ := Node.isLoose_iff.1 hret
    obtain ⟨u, hu, rfl⟩ := hn.token hloose
    have hnone : Stands ts [] [] := ⟨by simp [preorderAll], by simp [preorderAll]⟩
    refine hnone.under hn.kept fun hc => ?_
    rw [← hk]
    exact .keyword hu (.inr hk) hc
  ret := by
    intro n t s hn hret ht
    obtain ⟨hloose, hk⟩ := Node.isLoose_iff.1 hret
    obtain ⟨u, hu, rfl⟩ := hn.token hloose
    refine ht.under hn.kept fun hc => ?_
    rw [← hk]
    exact .keyword hu (.inr hk) hc

end Statement

/-! ## Complaints -/

/-- Moves every position that is not among those to keep. -/
def Position.keeping (kept : List Position) (p : Position) : Position :=
  if p ∈ kept then p else ⟨p.line + 1, p.column, p.source⟩

theorem Position.keeping_eq_self_iff {kept : List Position} {p : Position} : keeping kept p = p ↔ p ∈ kept := by
  unfold keeping
  split
  · rename_i h
    simp [h]
  · rename_i h
    have hline : (⟨p.line + 1, p.column, p.source⟩ : Position) ≠ p := by
      intro he
      have := congrArg Position.line he
      simp only at this
      omega
    simp [h, hline]

/-- A tree stays where it is exactly if its positions are kept. -/
theorem Node.relocate_keeping_iff {kept : List Position} {n : Node} :
    n.relocate (.keeping kept) = n ↔ ∀ m ∈ n.preorder, m.pos ∈ kept := by
  rw [relocate_eq_self_iff]
  simp only [Position.keeping_eq_self_iff]

namespace Statement

variable {s : Statement} {kept : List Position}

/-- Reducing a statement invents no positions: it does not notice a move that keeps those of the statement. -/
theorem reduce_within (h : ∀ n ∈ s, ∀ m ∈ n.preorder, m.pos ∈ kept) :
    ∀ n ∈ s.reduce, ∀ m ∈ n.preorder, m.pos ∈ kept := by
  have hs : s.map (Node.relocate (.keeping kept)) = s := by
    conv_rhs => rw [← List.map_id s]
    exact List.map_congr_left fun n hn => Node.relocate_keeping_iff.2 (h n hn)
  have hreduce := reduce_relocate (.keeping kept) s
  rw [hs] at hreduce
  conv_lhs at hreduce => rw [← List.map_id s.reduce]
  exact fun n hn => Node.relocate_keeping_iff.1 (List.map_inj_left.1 hreduce n hn).symm

theorem earliest?_mem {ns : List Node} {n : Node} (h : earliest? ns = some n) : n ∈ ns := by
  induction ns generalizing n with
  | nil => cases h
  | cons m ns ih =>
    unfold earliest? at h
    split at h
    · cases h
      simp
    · rename_i m' hm'
      cases h
      split
      · exact List.mem_cons_of_mem _ (ih hm')
      · simp

/-- A complaint about a statement is about a node in it. -/
theorem check_error_pos {c : Complaint} (hs : s ≠ []) (h : s.check = .error c) :
    ∃ n ∈ s, ∃ m ∈ n.preorder, c.pos = m.pos := by
  unfold check at h
  split at h
  · rename_i loose hloose
    cases h
    exact ⟨loose, List.mem_of_find?_eq_some hloose, loose, loose.mem_preorder_self, rfl⟩
  · split at h
    · exact absurd rfl hs
    · rename_i n _
      split at h
      · rename_i loose hloose
        cases h
        have hmem := List.mem_of_mem_filter (earliest?_mem hloose)
        exact ⟨n, by simp, loose, Node.mem_bottomUp.1 hmem, rfl⟩
      · cases h
    · rename_i n rest _ _
      cases h
      exact ⟨n, by simp, n, n.mem_preorder_self, rfl⟩

end Statement

/-! ## Building -/

namespace Event

variable {ρ ε α β : Type} {f : α → List (Event ρ ε β)} {es more : List (Event ρ ε α)}

theorem mem_each {e : Event ρ ε β} (h : e ∈ each f es) :
    (∃ a, item a ∈ es ∧ e ∈ f a) ∨ (∃ r, report r ∈ es ∧ e = .report r) ∨ ∃ e', e = .halt e' := by
  induction es with
  | nil => cases h
  | cons event es ih =>
    have hrest : e ∈ each f es → (∃ a, item a ∈ event :: es ∧ e ∈ f a) ∨
        (∃ r, report r ∈ event :: es ∧ e = .report r) ∨ ∃ e', e = .halt e' := by
      intro h
      rcases ih h with ⟨a, ha, he⟩ | ⟨r, hr, he⟩ | he
      · exact .inl ⟨a, List.mem_cons_of_mem _ ha, he⟩
      · exact .inr (.inl ⟨r, List.mem_cons_of_mem _ hr, he⟩)
      · exact .inr (.inr he)
    cases event with
    | item a =>
      rcases mem_chain h with h | h
      · exact .inl ⟨a, by simp, h⟩
      · exact hrest h
    | report r =>
      rcases List.mem_cons.1 h with h | h
      · exact .inr (.inl ⟨r, by simp, h⟩)
      · exact hrest h
    | halt e' => exact .inr (.inr ⟨e', List.mem_singleton.1 h⟩)

/-- Of events one after the other, those before a halt are handed on. -/
theorem chain_sublist (es more : List (Event ρ ε α)) : (chain es more).Sublist (es ++ more) := by
  induction es, more using chain_induct with
  | nil more => exact .refl _
  | halt e rest more => simp
  | report r rest more ih => exact ih.cons_cons _
  | item a rest more ih => exact ih.cons_cons _

theorem items_sublist (h : es.Sublist more) : (items es).Sublist (items more) := by
  induction h with
  | slnil => exact .refl _
  | cons e _ ih =>
    cases e with
    | item a => exact ih.cons _
    | report r => exact ih
    | halt e => exact ih
  | cons_cons e _ ih =>
    cases e with
    | item a => exact ih.cons_cons _
    | report r => exact ih
    | halt e => exact ih

end Event

namespace Tree

open Event (Items items)
open Statement (sites Ordered Stands mem_sites_iff sites_mono)
open Node (Rooted preorderAll mem_preorderAll)

variable {ts : List Token} {raw raw' : List Node} {es es' : Events Node} {n : Node}

/-- The node of one of some tokens; separators may be others. -/
def FromToken (ts : List Token) (n : Node) : Prop :=
  IsToken n ∧ (isSeparator n = false → ∃ t ∈ ts, n = .ofToken t)

theorem FromToken.rooted (h : FromToken ts n) (hn : isSeparator n = false) : n.Rooted ts := by
  obtain ⟨t, ht, rfl⟩ := h.2 hn
  refine ⟨hn, fun _ => ⟨t, ht, rfl⟩, fun hr m hm => ?_⟩
  rw [Node.preorder_ofToken, List.mem_singleton] at hm
  rw [hm]
  exact .leaf ht hr

/-- The nodes of tokens in the order of their positions. -/
structure Row (ts : List Token) (raw : List Node) : Prop where
  token : ∀ n ∈ raw, FromToken ts n
  ordered : Ordered raw

theorem Row.mono (h : Row ts raw') (hs : raw.Sublist raw') : Row ts raw :=
  ⟨fun n hn => h.token n (hs.subset hn), h.ordered.mono hs⟩

/-- What grouping draws from a row of nodes: tokens and groups in the order of the row, and complaints about
places in it. -/
structure Drawn (ts : List Token) (raw : List Node) (es : Events Node) : Prop where
  within : ∀ p ∈ sites (items es), p ∈ sites raw
  ordered : Ordered (items es)
  rooted : ∀ n ∈ items es, isSeparator n = false → n.Rooted ts
  report : ∀ c, Event.report c ∈ es → c.pos ∈ sites raw

namespace Drawn

theorem none (ts : List Token) (raw : List Node) : Drawn ts raw [] :=
  ⟨by simp [items, sites], .nil, by simp [items], by simp⟩

theorem item (h : FromToken ts n) : Drawn ts [n] [.item n] :=
  ⟨fun _ hp => hp, by simp [items, Ordered], by simpa [items] using h.rooted, by simp⟩

theorem mono (h : Drawn ts raw es) (hs : raw.Sublist raw') : Drawn ts raw' es :=
  ⟨fun p hp => sites_mono hs (h.within p hp), h.ordered, h.rooted, fun c hc => sites_mono hs (h.report c hc)⟩

theorem of_sublist (h : Drawn ts raw es) (hs : es'.Sublist es) : Drawn ts raw es' := by
  have hitems := Event.items_sublist hs
  exact ⟨fun p hp => h.within p (sites_mono hitems hp), h.ordered.mono hitems,
    fun n hn => h.rooted n (hitems.subset hn), fun c hc => h.report c (hs.subset hc)⟩

theorem complain {c : Complaint} (h : Drawn ts raw es) (hc : c.pos ∈ sites raw) : Drawn ts raw (.report c :: es) := by
  refine ⟨h.within, h.ordered, h.rooted, fun c' hc' => ?_⟩
  rcases List.mem_cons.1 hc' with hc' | hc'
  · cases hc'
    exact hc
  · exact h.report c' hc'

/-- What is drawn from the two parts of a row is in order if the row is. -/
theorem append (h : Drawn ts raw es) (h' : Drawn ts raw' es') (ho : Ordered (raw ++ raw')) :
    Drawn ts (raw ++ raw') (es ++ es') := by
  have hleft := h.mono (List.sublist_append_left raw raw')
  have hright := h'.mono (List.sublist_append_right raw raw')
  have hitems : items (es ++ es') = items es ++ items es' := Event.items_append
  refine ⟨fun p hp => ?_, ?_, fun n hn => ?_, fun c hc => ?_⟩
  · rw [hitems, sites, List.flatMap_append, List.mem_append] at hp
    exact hp.elim (hleft.within p) (hright.within p)
  · rw [hitems]
    refine List.pairwise_append.2 ⟨h.ordered, h'.ordered, fun n hn m hm p hp q hq => ?_⟩
    obtain ⟨a, ha, hpa⟩ := mem_sites_iff.1 (h.within p (mem_sites_iff.2 ⟨n, hn, hp⟩))
    obtain ⟨b, hb, hqb⟩ := mem_sites_iff.1 (h'.within q (mem_sites_iff.2 ⟨m, hm, hq⟩))
    exact (List.pairwise_append.1 ho).2.2 a ha b hb p hpa q hqb
  · rw [hitems, List.mem_append] at hn
    exact hn.elim (hleft.rooted n) (hright.rooted n)
  · exact (List.mem_append.1 hc).elim (hleft.report c) (hright.report c)

theorem chain (h : Drawn ts raw es) (h' : Drawn ts raw' es') (ho : Ordered (raw ++ raw')) :
    Drawn ts (raw ++ raw') (Event.chain es es') := (h.append h' ho).of_sublist (Event.chain_sublist es es')

end Drawn

/-- Where building draws groups from rows, so does grouping. -/
theorem group_drawn {build : Node → List Node → Events Node}
    (hb : ∀ o ns, o.kind.closer?.isSome → Row ts (o :: ns) → Drawn ts (o :: ns) (build o ns)) (ns : List Node) :
    ∀ pending : Option Pending, (∀ p ∈ pending, p.opener.kind.closer?.isSome) → Row ts (Pending.held pending ++ ns) →
      Drawn ts (Pending.held pending ++ ns) (group build pending (ns.map .item)) := by
  have hbuild : ∀ (p : Pending) (ns : List Node), p.opener.kind.closer?.isSome → Row ts (Pending.held (some p) ++ ns) →
      Drawn ts (Pending.held (some p)) (build p.opener p.inner.reverse) :=
    fun p ns hp hrow => hb _ _ hp (hrow.mono (List.sublist_append_left _ ns))
  have hunclosed : ∀ p : Pending, p.opener.kind.closer?.isSome → p.unclosed.pos ∈ sites (Pending.held (some p)) :=
    fun p hp => mem_sites_iff.2 ⟨p.opener, by simp [Pending.held], Node.pos_mem_sites (Node.isSeparator_of_opening hp)⟩
  induction ns with
  | nil =>
    intro pending hp hrow
    cases pending with
    | none => exact .none ts _
    | some p =>
      have hopener := hp p rfl
      have hgroup := (hbuild p [] hopener hrow).complain (hunclosed p hopener)
      exact hgroup.mono (List.sublist_append_left _ _)
  | cons n ns ih =>
    intro pending hp hrow
    cases pending with
    | none =>
      simp only [Pending.held, List.nil_append, List.map_cons, group] at hrow ⊢
      split
      · rename_i hn
        exact ih (some (.start n)) (by rintro p ⟨⟩; exact (Bool.and_eq_true_iff.1 hn).1) hrow
      · have hrest := ih none (by simp) (hrow.mono (List.sublist_cons_self n ns))
        exact (Drawn.item (hrow.token n (by simp))).append hrest hrow.ordered
    | some p =>
      have hopener := hp p rfl
      have hskip : (Pending.held (some p) ++ ns).Sublist (Pending.held (some p) ++ n :: ns) :=
        (List.Sublist.refl _).append (List.sublist_cons_self n ns)
      have hrest := ih none (by simp) (hrow.mono ((List.sublist_append_right _ ns).trans hskip))
      have hpush : ∀ depth, Drawn ts (Pending.held (some p) ++ n :: ns)
          (group build (some ⟨p.opener, depth, n :: p.inner⟩) (ns.map .item)) := by
        intro depth
        have hheld : Pending.held (some ⟨p.opener, depth, n :: p.inner⟩) ++ ns = Pending.held (some p) ++ n :: ns := by
          simp [Pending.held]
        rw [← hheld] at hrow ⊢
        exact ih _ (by rintro q ⟨⟩; exact hopener) hrow
      have hordered := hrow.ordered.mono hskip
      simp only [List.map_cons, group]
      split
      · exact hpush _
      · split
        · split
          · exact ((hbuild p _ hopener hrow).chain hrest hordered).mono hskip
          · exact hpush _
        · split
          · exact (((hbuild p _ hopener hrow).complain (hunclosed p hopener)).chain hrest hordered).mono hskip
          · exact hpush _

theorem split_report {c : Complaint} (current : List Node) (es : Events Node) (h : Event.report c ∈ split current es) :
    Event.report c ∈ es := by
  have hflush : ∀ ns : List Node, Event.report c ∉ flush ns := by
    intro ns
    unfold flush
    split <;> simp
  induction current, es using split_induct with
  | nil current => exact absurd h (hflush current)
  | halt => simp at h
  | report current r rest ih =>
    rcases List.mem_cons.1 h with h | h
    · cases h
      simp
    · exact List.mem_cons_of_mem _ (ih h)
  | separator current n rest _ ih =>
    rcases List.mem_append.1 h with h | h
    · exact absurd h (hflush current)
    · exact List.mem_cons_of_mem _ (ih h)
  | node current n rest _ ih => exact List.mem_cons_of_mem _ (ih h)

/-- A statement holds nodes one after the other. -/
theorem split_sublist {s : Statement} (current : List Node) (es : Events Node) (h : Event.item s ∈ split current es) :
    s.Sublist (current.reverse ++ items es) := by
  have hflush : ∀ ns more : List Node, Event.item s ∈ flush ns → s.Sublist (ns.reverse ++ more) := by
    intro ns more hs
    unfold flush at hs
    split at hs
    · cases hs
    · obtain rfl : s = ns.reverse := by simpa using hs
      exact List.sublist_append_left _ _
  induction current, es using split_induct with
  | nil current => exact hflush current _ h
  | halt => simp at h
  | report current r rest ih => exact ih (by simpa using h)
  | separator current n rest _ ih =>
    rcases List.mem_append.1 h with h | h
    · exact hflush current _ h
    · refine (ih h).trans ?_
      exact (List.sublist_cons_self n (items rest)).trans (List.sublist_append_right _ _)
  | node current n rest _ ih => simpa [items] using ih h

/-- The trees of statements and the complaints about them stand among the nodes that the statements are drawn
from. -/
theorem statements_drawn (limits : Limits) (source : Text) (h : Drawn ts raw es) (hes : Items Node.Delivered es) :
    Stands ts raw (items (statements limits source es)) ∧
      ∀ c, Event.report c ∈ statements limits source es → c.pos ∈ sites raw := by
  have hstatement : ∀ s, Event.item s ∈ split [] es → s ≠ [] ∧ (∀ m ∈ s, m.Delivered ∧ m.Rooted ts) ∧ Ordered s ∧
      ∀ p ∈ sites s, p ∈ sites raw := by
    intro s hs
    have hsub : s.Sublist (items es) := split_sublist [] es hs
    obtain ⟨hne, hnodes⟩ := split_items (D := fun n => isSeparator n = false ∧ n.Delivered) [] es (by simp)
      (fun n hn hsep => ⟨hsep, hes n hn⟩) s hs
    refine ⟨hne, fun m hm => ⟨(hnodes m hm).2, h.rooted m (hsub.subset hm) (hnodes m hm).1⟩, h.ordered.mono hsub, ?_⟩
    exact fun p hp => h.within p (sites_mono hsub hp)
  have htree : ∀ m ∈ preorderAll (items (statements limits source es)), m.pos ∈ sites raw ∧ m.Sited ts := by
    intro m hm
    obtain ⟨n, hn, hm⟩ := mem_preorderAll.1 hm
    rcases Event.mem_each (Event.mem_items.1 hn) with ⟨s, hs, hn⟩ | ⟨r, -, ⟨⟩⟩ | ⟨e, ⟨⟩⟩
    obtain ⟨-, hnodes, hordered, hwithin⟩ := hstatement s hs
    have hderives := settle_derives (fun m hm => (hnodes m hm).1) hn
    have hstands := (Statement.stands_ruleClosed ts).derives s n (fun m hm => (hnodes m hm).2) hderives
    have hmem : m ∈ preorderAll [n] := mem_preorderAll.2 ⟨n, by simp, hm⟩
    exact ⟨hwithin _ (hstands.within m hmem), hstands.sited hordered m hmem⟩
  refine ⟨⟨fun m hm => (htree m hm).1, fun _ m hm => (htree m hm).2⟩, fun c hc => ?_⟩
  rcases Event.mem_each hc with ⟨s, hs, hc⟩ | ⟨r, hr, ⟨⟩⟩ | ⟨e, ⟨⟩⟩
  · obtain ⟨hne, hnodes, -, hwithin⟩ := hstatement s hs
    obtain ⟨n, hn, m, hm, hpos⟩ := Statement.check_error_pos (Statement.reduce_ne_nil hne) (check_of_report hc)
    rw [hpos]
    refine hwithin _ (Statement.reduce_within (fun n hn m hm => ?_) n hn m hm)
    exact mem_sites_iff.2 ⟨n, hn, Node.mem_sites (hnodes n hn).2.kept hm⟩
  · exact h.report c (split_report [] es hr)

/-- A bracket around trees that stand among the nodes in it. -/
theorem close_drawn {opener : Node} {inner : List Node} (ho : opener.kind.closer?.isSome)
    (hrow : Row ts (opener :: inner)) (hes : Stands ts inner (items es))
    (hreport : ∀ c, Event.report c ∈ es → c.pos ∈ sites inner) :
    Drawn ts (opener :: inner) (close opener es).events := by
  have hkept := Node.isSeparator_of_opening ho
  have hcomplaint : ∀ c, Event.report c ∈ (close opener es).events → c.pos ∈ sites (opener :: inner) := by
    intro c hc
    rcases List.mem_append.1 hc with hc | hc
    · obtain ⟨c', hc', ⟨⟩⟩ := List.mem_map.1 hc
      exact sites_mono (List.sublist_cons_self opener inner) (hreport c (Event.mem_reports.1 hc'))
    · rw [List.mem_singleton] at hc
      split at hc <;> cases hc
  cases hresult : (close opener es).result with
  | error e =>
    have hitems : items (close opener es).events = [] := by
      rw [Built.events, hresult, Event.items_append, Event.items_map_report]
      rfl
    exact ⟨by simp [hitems, sites], by simp [hitems, Ordered], by simp [hitems], hcomplaint⟩
  | ok n =>
    have hitems : items (close opener es).events = [n] := by
      rw [Built.events, hresult, Event.items_append, Event.items_map_report]
      rfl
    obtain ⟨t, ht, rfl⟩ := (hrow.token opener (by simp)).2 hkept
    have hn := close_eq_ok hresult
    have hstands : Stands ts (.ofToken t :: inner) [n] := by
      rw [hn]
      exact hes.under hkept fun hc => .group ht ho hc
    have hresolved : n.resolved = true := by rw [hn]; rfl
    have hmem : ∀ m ∈ n.preorder, m ∈ preorderAll [n] := fun m hm => mem_preorderAll.2 ⟨n, by simp, hm⟩
    have hsep := Node.isSeparator_of_resolved hresolved
    refine ⟨fun p hp => ?_, by simp [hitems, Ordered], fun m hm _ => ?_, hcomplaint⟩
    · rw [hitems, sites, List.flatMap_singleton, Node.sites_eq hsep] at hp
      obtain ⟨m, hm, rfl⟩ := List.mem_map.1 hp
      exact hstands.within m (hmem m hm)
    · rw [hitems, List.mem_singleton] at hm
      subst hm
      refine ⟨hsep, fun hloose => ?_, fun _ m hm => hstands.sited hrow.ordered m (hmem m hm)⟩
      rw [hresolved] at hloose
      cases hloose

/-- At every depth of brackets, a group is drawn from the bracket that opens it and the nodes in it. -/
theorem build_drawn (limits : Limits) : ∀ (depth : Nat) (opener : Node) (inner : List Node), opener.kind.closer?.isSome →
    Row ts (opener :: inner) → Drawn ts (opener :: inner) (build limits depth opener inner).events
  | 0, opener, inner, _, _ => ⟨by simp [build, Built.events, items, sites], .nil, by simp [build, Built.events, items],
      by simp [build, Built.events]⟩
  | depth + 1, opener, inner, ho, hrow => by
    have hinner : Row ts inner := hrow.mono (List.sublist_cons_self opener inner)
    have hitems : Items IsToken (inner.map .item : Events Node) := .map_item fun n hn => (hinner.token n hn).1
    have hgroup := group_drawn (build_drawn limits depth) inner none (by simp) hinner
    obtain ⟨htrees, hcomplaints⟩ := statements_drawn limits opener.pos.source hgroup (grouped_delivered depth hitems)
    exact close_drawn ho hrow htrees hcomplaints

end Tree

/-! ## Parsed sources -/

/-- The tokens of a scan that are no comments. -/
def Scan.uncommented (s : Scan) : List Token := s.tokens.filter fun t => !t.kind.isComment

/-- A position is that of a token. -/
def Position.OfToken (ts : List Token) (p : Position) : Prop := ∃ t ∈ ts, p = t.pos

namespace Tree

open Statement (sites Ordered mem_sites_iff)

variable {source text : Text} {pos : Position}

/-- The nodes of a source that is scanned to its end, with the end. -/
def sourceNodes (s : Scan) (pos : Position) : List Node := tokenNodes s.tokens ++ [.ofToken ⟨.eof, [], pos⟩]

theorem isSeparator_eof (pos : Position) : isSeparator (.ofToken ⟨.eof, [], pos⟩) = true := rfl

theorem sourceNodes_row (source text : Text) (pos : Position) :
    Row (scan source text).uncommented (sourceNodes (scan source text) pos) := by
  have hend : (Node.ofToken ⟨.eof, [], pos⟩).sites = [] := by simp [Node.sites, isSeparator_eof]
  refine ⟨fun n hn => ?_, ?_⟩
  · rcases List.mem_append.1 hn with hn | hn
    · obtain ⟨t, ht, rfl⟩ := List.mem_map.1 hn
      exact ⟨⟨t, rfl⟩, fun _ => ⟨t, ht, rfl⟩⟩
    · rw [List.mem_singleton.1 hn]
      exact ⟨⟨_, rfl⟩, fun h => by rw [isSeparator_eof] at h; cases h⟩
  · have hgrow := (scan_positions_grow source text).filter fun t => !t.kind.isComment
    refine List.pairwise_append.2 ⟨List.pairwise_map.2 (hgrow.imp fun {t u} h p hp q hq => ?_), List.pairwise_singleton _ _, ?_⟩
    · rw [Node.sites_ofToken hp, Node.sites_ofToken hq]
      exact h
    · intro n _ m hm p _ q hq
      rw [List.mem_singleton.1 hm, hend] at hq
      cases hq

theorem sites_sourceNodes {p : Position} (h : p ∈ sites (sourceNodes (scan source text) pos)) :
    p.OfToken (scan source text).uncommented := by
  obtain ⟨n, hn, hp⟩ := mem_sites_iff.1 h
  have hkept : isSeparator n = false := by
    cases hsep : isSeparator n with
    | false => rfl
    | true => simp [Node.sites, hsep] at hp
  obtain ⟨t, ht, rfl⟩ := ((sourceNodes_row source text pos).token n hn).2 hkept
  exact ⟨t, ht, Node.sites_ofToken hp⟩

end Tree

/-- What parsing makes of a source that is scanned to its end stands where it should, and at tokens of the
source. -/
theorem parse_sited (limits : Limits) {source text : Text} {pos : Position}
    (h : (scan source text).ending = .finished pos) :
    (∀ root, (parse limits source text).result = .ok root → root.pos = .start source ∧
      ∀ c ∈ root.children, ∀ n ∈ c.preorder, n.Sited (scan source text).uncommented ∧
        n.pos.OfToken (scan source text).uncommented) ∧
      ∀ c ∈ (parse limits source text).complaints, c.pos.OfToken (scan source text).uncommented := by
  have hrow := Tree.sourceNodes_row source text pos
  have hnodes : Tree.nodes (scan source text) = (Tree.sourceNodes (scan source text) pos).map .item := by
    rw [Tree.nodes_finished h, Tree.sourceNodes, List.map_append]
    rfl
  have hgroup := Tree.group_drawn (Tree.build_drawn limits limits.brackets) (Tree.sourceNodes (scan source text) pos) none
    (by simp) hrow
  have hdelivered := Tree.groupAll_delivered limits (scan source text)
  rw [hnodes, Tree.groupAll] at hdelivered
  obtain ⟨htrees, hcomplaints⟩ := Tree.statements_drawn limits source hgroup hdelivered
  have hparse : parse limits source text = Tree.close (Tree.root source) (Tree.statements limits source (Tree.group
      (fun n ns => (Tree.build limits limits.brackets n ns).events) none
      ((Tree.sourceNodes (scan source text) pos).map .item))) := by
    rw [parse, hnodes, Tree.groupAll]
  refine ⟨fun root hroot => ?_, fun c hc => ?_⟩
  · rw [hparse] at hroot
    rw [Tree.close_eq_ok hroot]
    refine ⟨rfl, fun c hc n hn => ?_⟩
    have hmem := Node.mem_preorderAll.2 ⟨c, hc, hn⟩
    exact ⟨htrees.sited hrow.ordered n hmem, Tree.sites_sourceNodes (htrees.within n hmem)⟩
  · rw [hparse] at hc
    exact Tree.sites_sourceNodes (hcomplaints c (Event.mem_reports.1 hc))

end Kettle
