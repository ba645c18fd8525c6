/-
The shape of parsed trees. Every node that the grammar makes is resolved, has the children that its kind
asks for, and, if it is a number, has the text of a number token. The rules of the grammar keep this one
by one, and brackets keep it at every depth, so it holds of the tree of any source.
-/
import Kettle.Operator
import Kettle.Proofs.Tree.Readable

namespace Kettle

namespace Node

variable {c : Node}

/-- What can stand before the arguments of a call. -/
def calleeKinds : List Kind := [.ident, .apply, .function, .lpar]

/-- Whether a node has the children that its kind asks for. The kinds that are left out are those of
tokens that no tree keeps. -/
def shaped (n : Node) : Bool :=
  match n.kind with
  | .lbrace | .lpar => true
  | .ident | .number | .doubleQuoted | .singleQuoted | .backquoted | .brk | .cont => n.children.isEmpty
  | .comma => 2 ≤ n.children.length && n.children.all fun c => c.kind ≠ .comma
  | .plus | .minus | .star | .slash | .mod | .lt | .gt | .lte | .gte | .eq | .neq | .and | .or | .assign =>
    n.children.length = 2
  | .not | .neg => n.children.length = 1
  | .ret => n.children.length ≤ 1
  | .apply =>
    match n.children with
    | [callee, args] => calleeKinds.contains callee.kind && args.kind = .lpar
    | _ => false
  | .function =>
    match n.children with
    | [params] => params.kind = .lpar
    | [params, body] => params.kind = .lpar && body.kind = .lbrace
    | _ => false
  | _ => false

theorem shaped_operand (n : Node) (h : n.shaped = true) (hk : isOperand n.kind = true) : n.children = [] := by
  unfold shaped at h
  revert h hk
  cases n.kind <;> simp [isOperand, Kind.isString]

theorem shaped_apply (n : Node) (h : n.shaped = true) (hk : n.kind = .apply) :
    ∃ callee args, n.children = [callee, args] ∧ callee.kind ∈ calleeKinds ∧ args.kind = .lpar := by
  simp only [shaped, hk] at h
  split at h
  · rename_i callee args hc
    exact ⟨callee, args, hc, by simpa using h⟩
  · cases h

theorem shaped_operator (n : Node) {op : Operator} (h : n.shaped = true) (hop : Operator.ofKind? n.kind = some op) :
    n.children.length = 2 := by
  unfold shaped at h
  cases hk : n.kind <;> rw [hk] at h hop <;> first | cases hop; done | simpa using h

variable {n : Node}

/-- What the grammar promises of each node. -/
structure Formed (n : Node) : Prop where
  resolved : n.resolved = true
  shaped : n.shaped = true
  numeral : n.kind = .number → Lexeme.Spells .number n.text

/-- A tree all of whose nodes are as the grammar makes them. -/
def WellFormed (n : Node) : Prop := ∀ m ∈ n.preorder, m.Formed

theorem WellFormed.formed (h : n.WellFormed) : n.Formed := h n n.mem_preorder_self

theorem WellFormed.child (h : n.WellFormed) (hc : c ∈ n.children) : c.WellFormed := fun m hm =>
  h m (mem_preorder_child hc hm)

theorem wellFormed_of_children (hn : n.Formed) (hc : ∀ c ∈ n.children, c.WellFormed) : n.WellFormed := by
  intro m hm
  rw [preorder_eq, List.mem_cons, mem_preorderAll] at hm
  rcases hm with rfl | ⟨c, hcm, hm⟩
  · exact hn
  · exact hc c hcm m hm

/-- A node that is made of well-formed trees. -/
theorem wellFormed_into {kind : Kind} {text : Text} {children : List Node} (hk : kind ≠ .number)
    (hs : (n.into kind text children).shaped = true) (hc : ∀ c ∈ children, c.WellFormed) :
    (n.into kind text children).WellFormed :=
  wellFormed_of_children ⟨rfl, hs, fun h => absurd h hk⟩ hc

theorem shaped_operation {op x y : Node} {kind : Kind} {text : Text} (hk : kind ∈ operatorKinds) :
    (op.into kind text [x, y]).shaped = true := by
  revert hk
  cases kind <;> first | exact fun _ => rfl | exact fun h => absurd h (by decide)

theorem wellFormed_operation {op x y : Node} {kind : Kind} {text : Text} (hk : kind ∈ operatorKinds)
    (hx : x.WellFormed) (hy : y.WellFormed) : (op.into kind text [x, y]).WellFormed := by
  have hnumber : kind ≠ .number := by
    rintro rfl
    exact absurd hk (by decide)
  exact wellFormed_into hnumber (shaped_operation hk) (by simpa using ⟨hx, hy⟩)

theorem wellFormed_assignment {op x y : Node} {text : Text} (hx : x.WellFormed) (hy : y.WellFormed) :
    (op.into .assign text [x, y]).WellFormed :=
  wellFormed_into (by decide) rfl (by simpa using ⟨hx, hy⟩)

/-! ## Words and groups -/

/-- A word that is an operand is a well-formed tree of its own. -/
theorem IsWord.wellFormed (h : n.IsWord) (hn : n.resolved = true) : n.WellFormed := by
  have hchildren := h.children
  have hk : isOperand n.kind = true := h.resolved_eq ▸ hn
  refine wellFormed_of_children ⟨hn, ?_, fun hnumber => ?_⟩ (by simp [hchildren])
  · unfold shaped
    rw [hchildren]
    revert hk
    cases n.kind <;> first | exact fun _ => rfl | exact fun h => absurd h (by decide)
  · have hspells := h.spells (by rw [hnumber]; decide)
    rwa [hnumber] at hspells

theorem wellFormed_group {opener : Node} {children : List Node} (hk : opener.kind.closer?.isSome)
    (hc : ∀ c ∈ children, c.WellFormed) : (opener.into opener.kind opener.text children).WellFormed := by
  have hkind : opener.kind = .lpar ∨ opener.kind = .lbrace := by
    revert hk
    cases opener.kind <;> simp [Kind.closer?]
  rcases hkind with hk | hk <;> rw [hk] <;> exact wellFormed_into (by decide) rfl hc

/-- What a statement is made of: each node of it that is an operand already is a well-formed tree. -/
def Founded (n : Node) : Prop := n.resolved = true → n.WellFormed

theorem Founded.of_isResolved {k : Kind} (h : n.Founded) (hn : n.isResolved k = true) :
    n.WellFormed ∧ n.kind = k := ⟨h (isResolved_iff.1 hn).1, (isResolved_iff.1 hn).2⟩

end Node

/-! ## The rules of the grammar -/

namespace Statement

open Node (WellFormed Founded wellFormed_into)

variable {s : Statement} {t : Node}

theorem Callee.wellFormed (hI : ∀ m ∈ s, m.Founded) (h : Callee s t) : t.WellFormed := by
  cases h with
  | name hn => exact ((hI t (by simp)).of_isResolved hn).1
  | group hn => exact ((hI t (by simp)).of_isResolved hn).1
  | @function fn params _ hp =>
    obtain ⟨hparams, hpk⟩ := (hI params (by simp)).of_isResolved hp
    exact wellFormed_into (by decide) (by simp [Node.shaped, Node.into, hpk]) (by simpa using hparams)
  | @functionBody fn params body _ hp hb =>
    obtain ⟨hparams, hpk⟩ := (hI params (by simp)).of_isResolved hp
    obtain ⟨hbody, hbk⟩ := (hI body (by simp)).of_isResolved hb
    exact wellFormed_into (by decide) (by simp [Node.shaped, Node.into, hpk, hbk]) (by simpa using ⟨hparams, hbody⟩)

/-- The trees between the commas of a list: two at least, and no comma list among them. -/
theorem Elements.listed {P : Phrases} {c : Node} {xs : List Node}
    (h : Elements (fun s t => P s t ∧ t.kind ≠ .comma) s c xs) :
    2 ≤ xs.length ∧ ∀ x ∈ xs, (∃ s, P s x) ∧ x.kind ≠ .comma := by
  induction h with
  | two hs _ hy => exact ⟨le_rfl, by simpa using ⟨⟨⟨_, hs.1⟩, hs.2⟩, ⟨_, hy.1⟩, hy.2⟩⟩
  | more _ _ hy ih =>
    refine ⟨by rw [List.length_append]; omega, fun x hx => ?_⟩
    rcases List.mem_append.1 hx with hx | hx
    · exact ih.2 x hx
    · rw [List.mem_singleton.1 hx]
      exact ⟨⟨_, hy.1⟩, hy.2⟩

theorem wellFormed_assigned {op x y : Node} (hx : x.WellFormed) (hy : y.WellFormed) : (assigned x op y).WellFormed := by
  unfold assigned
  split
  · rename_i k hcompound
    have hkind : k ∈ Node.operatorKinds := by
      revert hcompound
      cases op.kind <;> simp [Kind.compound?] <;> rintro rfl <;> decide
    exact Node.wellFormed_assignment hx (Node.wellFormed_operation hkind hx hy)
  · exact Node.wellFormed_assignment hx hy

/-- Every rule of the grammar makes a well-formed tree of well-formed trees. -/
theorem wellFormed_ruleClosed : RuleClosed Founded fun _ t => t.WellFormed where
  leaf h hn _ := h hn
  callee hI h := h.wellFormed hI
  call := by
    intro s f args hf hcallee hargs hlpar
    obtain ⟨hargs, hak⟩ := hargs.of_isResolved hlpar
    refine wellFormed_into (by decide) ?_ (by simpa using ⟨hf, hargs⟩)
    simpa [Node.shaped, Node.into, hak, Node.calleeKinds] using (isCallee_iff.1 hcallee).2
  enclosed h he := by
    obtain ⟨hn, hc, -⟩ := he
    exact (h.of_isResolved hn).1.child (by simp [hc])
  sign := by
    intro op t kind s _ _ hk ht
    have hkind : kind = .not ∨ kind = .neg := by
      revert hk
      cases op.kind <;> simp [unary?] <;> rintro rfl <;> simp
    rcases hkind with rfl | rfl <;> exact wellFormed_into (by decide) rfl (by simpa using ht)
  operation hx _ _ hk hy := Node.wellFormed_operation hk hx hy
  commaList := by
    intro s c xs _ h
    obtain ⟨hlength, hxs⟩ := h.listed
    refine wellFormed_into (by decide) ?_ fun x hx => (hxs x hx).1.choose_spec
    simpa [Node.shaped, Node.into, hlength] using fun x hx => (hxs x hx).2
  assign hx _ _ _ hy := wellFormed_assigned hx hy
  bare _ _ := wellFormed_into (by decide) rfl (by simp)
  ret _ _ ht := wellFormed_into (by decide) rfl (by simpa using ht)

end Statement

/-! ## Parsed trees -/

namespace Tree

open Node (Founded WellFormed)

/-- Words, brackets and statements of a source are well formed where they are operands. -/
theorem sorts_wellFormed : Sorts IsSource Founded WellFormed where
  token h := h.token
  word h hn := by
    rcases h.word with hsep | hword
    · rw [(Node.isSeparator_loose hsep).1] at hn
      cases hn
    · exact hword.wellFormed hn
  group _ hk hc _ := Node.wellFormed_group hk hc
  tree hI h := Statement.wellFormed_ruleClosed.derives _ _ hI h

end Tree

/-- The tree of a source is well formed, whatever was left out of it. -/
theorem parse_wellFormed {limits : Limits} {source text : Text} {root : Node}
    (h : (parse limits source text).result = .ok root) : root.WellFormed := by
  have hchildren := Tree.sorts_wellFormed.parse (Tree.nodes_source source text) h
  rw [Tree.close_eq_ok h] at hchildren ⊢
  exact Node.wellFormed_group rfl hchildren

end Kettle
