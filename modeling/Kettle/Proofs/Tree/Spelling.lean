/-
Words of trees as statements. The words of a readable tree spell a statement: single words stand for
tokens, and brackets with what is between them for a group. The grammar derives that statement, and the
tree it derives is the one that was written.
-/
import Kettle.Proofs.Tree.Readable

namespace Kettle

namespace Tree

open Node (writing words wrapped isWrapped standsAlone)
open Statement (Derives Primary Calls Signed Tiers Elements)

/-! ## Spelled nodes -/

/-- Statements with separators between them, and the tree of each. -/
inductive Sentences : List Node → List Node → Prop where
  | nil : Sentences [] []
  | last {s : Statement} {n : Node} (hs : ∀ m ∈ s, isSeparator m = false) (h : Derives s n) : Sentences s [n]
  | more {s : Statement} {p ns : List Node} {sep n : Node} (hs : ∀ m ∈ s, isSeparator m = false)
      (h : Derives s n) (hsep : isSeparator sep = true) (hp : Sentences p ns) : Sentences (s ++ sep :: p) (n :: ns)

/-- The kinds of brackets. -/
def bracketKinds : List Kind := [.lpar, .rpar, .lbrace, .rbrace]

/-- The kinds of words that are in no tree by themselves: brackets, and what assignments are compounded with, which is
written out. -/
def unwrittenKinds : List Kind := bracketKinds ++ [.plusEq, .minusEq, .starEq, .slashEq, .modEq]

theorem not_bracket {k : Kind} (h : k ∉ unwrittenKinds) : k ∉ bracketKinds :=
  fun hk => h (List.mem_append_left _ hk)

theorem compound?_of_written {k : Kind} (h : k ∉ unwrittenKinds) : k.compound? = none := by
  revert h
  cases k <;> decide

/-- Words spell nodes: a word the node of its token, and brackets a group of the trees of the statements
between them. -/
inductive Spelled : List Text → List Node → Prop where
  | nil : Spelled [] []
  | word {n : Node} {ws : List Text} {s : List Node} (hn : n.IsWord) (hk : n.kind ∉ unwrittenKinds)
      (h : Spelled ws s) : Spelled (n.text :: ws) (n :: s)
  | group {n : Node} {closing : Text} {inner ws : List Text} {p s : List Node} (hr : n.resolved = true)
      (hk : writing n.kind = .brackets n.text closing) (hinner : Spelled inner p) (hp : Sentences p n.children)
      (h : Spelled ws s) : Spelled (n.text :: (inner ++ closing :: ws)) (n :: s)

variable {ws ws' : List Text} {s s' p ns : List Node} {n x y op : Node}

theorem Spelled.append (h : Spelled ws s) (h' : Spelled ws' s') : Spelled (ws ++ ws') (s ++ s') := by
  induction h with
  | nil => exact h'
  | word hn hk _ ih => exact .word hn hk ih
  | group hr hk hinner hp _ _ ih =>
    rw [List.cons_append, List.append_assoc, List.cons_append]
    exact .group hr hk hinner hp ih

theorem spelled_word (hn : n.IsWord) (hk : n.kind ∉ unwrittenKinds) : Spelled [n.text] [n] :=
  .word hn hk .nil

theorem Sentences.finished (h : Sentences p ns) (hp : ∀ m ∈ p, m.Delivered) : ∀ n ∈ ns, n.Finished := by
  induction h with
  | nil => simp
  | last _ h => simpa using Statement.derives_finished _ _ hp h
  | more _ h _ _ ih =>
    have hn := Statement.derives_finished _ _ (Statement.forall_left hp) h
    simpa using ⟨hn, ih (Statement.forall_right hp)⟩

theorem Spelled.delivered (h : Spelled ws s) : ∀ m ∈ s, m.Delivered := by
  induction h with
  | nil => simp
  | @word n _ _ hn _ _ ih =>
    obtain ⟨t, rfl, -⟩ := hn
    simpa using ⟨Node.Delivered.ofToken t, ih⟩
  | @group n _ _ _ _ _ hr hk _ hp _ ihp ih =>
    have hn : n.Delivered := .group hr (Node.brackets_kind hk) (hp.finished ihp)
    simpa using ⟨hn, ih⟩

/-- No compound assignment is among spelled nodes. -/
theorem Spelled.plain (h : Spelled ws s) : ∀ m ∈ s, m.kind.compound? = none := by
  induction h with
  | nil => simp
  | word _ hk _ ih => simpa using ⟨compound?_of_written hk, ih⟩
  | @group n _ _ _ _ _ _ hk _ _ _ _ ih =>
    have hn : n.kind.compound? = none := by rcases Node.brackets_kind hk with hk | hk <;> rw [hk] <;> rfl
    simpa using ⟨hn, ih⟩

/-! ## Statements that are read back -/

/-- A statement that is read as a tree, in every place where the tree may stand. -/
structure Reading (s : Statement) (n : Node) : Prop where
  inline : ∀ m ∈ s, isSeparator m = false
  bracket : n.kind = .lpar ∨ n.kind = .lbrace → s = [n]
  calls : Statement.isCallee n = true → Calls s n
  primary : standsAlone n.kind = true → n.Settled → Primary s n
  listing : n.kind = .comma → Statement.Listing (Tiers (Signed Primary)) s n
  derives : n.Settled → Derives s n

theorem derives_of_tiers (h : Tiers (Signed Primary) s n) : Derives s n := .plain (.single (.single h))

theorem tiers_of_primary (h : Primary s n) : Tiers (Signed Primary) s n :=
  .single (.single (.single (.single (.operand h))))

/-- A tree that stands alone is read as a whole statement too. -/
theorem Reading.of_primary (hs : ∀ m ∈ s, isSeparator m = false) (hb : n.kind = .lpar ∨ n.kind = .lbrace → s = [n])
    (hc : Statement.isCallee n = true → Calls s n) (hn : standsAlone n.kind = true) (h : n.Settled → Primary s n) :
    Reading s n := by
  refine ⟨hs, hb, hc, fun _ => h, ?_, fun hsettled => derives_of_tiers (tiers_of_primary (h hsettled))⟩
  intro hk
  rw [hk] at hn
  cases hn

/-- A tree that is written around an operator is read as a whole statement only. -/
theorem Reading.of_derives (hs : ∀ m ∈ s, isSeparator m = false) (hn : standsAlone n.kind = false)
    (hlisting : n.kind = .comma → Statement.Listing (Tiers (Signed Primary)) s n) (h : Derives s n) : Reading s n := by
  refine ⟨hs, ?_, ?_, ?_, hlisting, fun _ => h⟩
  · rintro (hk | hk) <;> rw [hk] at hn <;> cases hn
  · intro hc
    have hall : ∀ k ∈ [Kind.ident, .apply, .function, .lpar], standsAlone k = true := by decide
    rw [hall _ (Statement.isCallee_iff.1 hc).2] at hn
    cases hn
  · intro hk
    rw [hk] at hn
    cases hn

/-- An operand is read as a primary, in parentheses or not. -/
theorem Reading.operand (h : Reading s x) (hs : Spelled x.words s) (hx : x.Settled) (hk : x.kind ≠ .comma)
    (outer : Kind) :
    ∃ s', Spelled (wrapped outer x.kind x.words) s' ∧ Primary s' x ∧ ∀ m ∈ s', isSeparator m = false := by
  unfold wrapped
  split
  · have hgroup : Spelled (x.enclose.text :: (x.words ++ [(")" : Text)])) [x.enclose] :=
      .group rfl rfl hs (.last h.inline (h.derives hx)) .nil
    exact ⟨[x.enclose], hgroup, .enclosed ⟨rfl, rfl, hk⟩, by simp [isSeparator, Node.enclose, Node.isLoose]⟩
  · rename_i hw
    have halone : standsAlone x.kind = true := by simpa [isWrapped, hk] using hw
    exact ⟨s, hs, h.primary halone hx, h.inline⟩

/-- What is assigned or returned is read as a listing, in parentheses or not. -/
theorem Reading.side (h : Reading s x) (hs : Spelled x.words s) (hx : x.Settled) {outer : Kind}
    (ho : outer = .assign ∨ outer = .ret) :
    ∃ s', Spelled (wrapped outer x.kind x.words) s' ∧ Statement.Listing (Tiers (Signed Primary)) s' x ∧
      ∀ m ∈ s', isSeparator m = false := by
  by_cases hk : x.kind = .comma
  · have hbare : isWrapped outer x.kind = false := by rcases ho with rfl | rfl <;> rw [hk] <;> rfl
    unfold wrapped
    rw [if_neg (by simp [hbare])]
    exact ⟨s, hs, h.listing hk, h.inline⟩
  · obtain ⟨s', hs', hprimary, hinline⟩ := h.operand hs hx hk outer
    exact ⟨s', hs', .single (tiers_of_primary hprimary), hinline⟩

/-- An operator between primaries is read in the tier of its kind. -/
theorem tiers_operation (hop : op.resolved = false) (hk : op.kind ∈ Node.operatorKinds) (hx : Primary s x)
    (hy : Primary s' y) : Tiers (Signed Primary) (s ++ op :: s') (op.into op.kind op.text [x, y]) := by
  have htier : op.kind ∈ [Kind.and, .or] ∨ op.kind ∈ [Kind.lt, .gt, .lte, .gte, .eq, .neq] ∨
      op.kind ∈ [Kind.plus, .minus] ∨ op.kind ∈ [Kind.star, .slash, .mod] := by
    revert hk
    cases op.kind <;> decide
  rcases htier with hk | hk | hk | hk
  · exact .more (.single (.single (.single (.single (.operand hx))))) hop hk (.single (.single (.single (.operand hy))))
  · exact .single (.more (.single (.single (.single (.operand hx)))) hop hk (.single (.single (.operand hy))))
  · exact .single (.single (.more (.single (.single (.operand hx))) hop hk (.single (.operand hy))))
  · exact .single (.single (.single (.more (.single (.operand hx)) hop hk (.operand hy))))

/-! ## Readable trees -/

theorem loose_of_word (hop : op.IsWord) (hk : Node.isOperand op.kind = false) : op.resolved = false := by
  rw [hop.resolved_eq, hk]

theorem inline_of_kind (hk : op.kind ≠ .separator ∧ op.kind ≠ .eof) : isSeparator op = false := by
  simp [isSeparator, Node.isLoose, hk]

/-- A sign before a primary is read as a sign. -/
theorem signed_of_sign {kind : Kind} (hop : op.IsWord) (hk : Statement.unary? op.kind = some kind) (h : Primary s x) :
    Signed Primary (op :: s) (op.into kind op.text [x]) := by
  rcases Statement.unary?_eq_some hk with ⟨hkind, rfl⟩ | ⟨hkind, rfl⟩
  · exact .not (Node.isLoose_iff.2 ⟨loose_of_word hop (by rw [hkind]; rfl), hkind⟩) (.operand h)
  · exact .minus (Node.isLoose_iff.2 ⟨loose_of_word hop (by rw [hkind]; rfl), hkind⟩) (.operand h)

theorem spread_cons {α : Type} (mark : α) (ws : List α) (rest : List (List α)) :
    Text.spread mark (ws :: rest) = ws ++ rest.flatMap fun v => mark :: v := by
  induction rest generalizing ws with
  | nil => simp [Text.spread]
  | cons v rest ih => rw [Text.spread, ih]; simp

/-- Statements with semicolons between them spell the trees that each of them spells. -/
theorem sentences_of_readings {cs : List Node} (h : ∀ c ∈ cs, c.Settled ∧ ∃ s, Spelled c.words s ∧ Reading s c) :
    ∃ p, Spelled (Text.spread (";" : Text) (cs.map words)) p ∧ Sentences p cs := by
  have hword : (Node.ofToken ⟨.separator, ";", .start []⟩).IsWord := ⟨_, rfl, .single (by decide), rfl⟩
  induction cs with
  | nil => exact ⟨[], .nil, .nil⟩
  | cons c cs ih =>
    obtain ⟨hc, s, hs, hr⟩ := h c (by simp)
    obtain ⟨p, hp, hsentences⟩ := ih fun c' hc' => h c' (by simp [hc'])
    cases cs with
    | nil => exact ⟨s, hs, .last hr.inline (hr.derives hc)⟩
    | cons c' cs =>
      refine ⟨s ++ .ofToken ⟨.separator, ";", .start []⟩ :: p, ?_, .more hr.inline (hr.derives hc) rfl hsentences⟩
      exact hs.append (.word hword (by decide) hp)

/-- Words that are read as an operand of a comma list. -/
def IsElement (ws : List Text) (n : Node) : Prop :=
  ∃ s, Spelled ws s ∧ Tiers (Signed Primary) s n ∧ ∀ m ∈ s, isSeparator m = false

section Parts

variable {ι : Type} {words : ι → List Text} {tree : ι → Node}

/-- The elements of a comma list after its first two. -/
theorem elements_more (hop : op.IsWord) (hk : op.kind = .comma) {xs : List Node}
    (h : Spelled ws s) (hs : ∀ m ∈ s, isSeparator m = false) (he : Elements (Tiers (Signed Primary)) s op xs) :
    ∀ more : List ι, (∀ y ∈ more, IsElement (words y) (tree y)) →
      ∃ s', Spelled (ws ++ (more.map words).flatMap fun v => op.text :: v) s' ∧
        (∀ m ∈ s', isSeparator m = false) ∧ Elements (Tiers (Signed Primary)) s' op (xs ++ more.map tree) := by
  intro more
  induction more generalizing ws s xs with
  | nil => exact fun _ => ⟨s, by simpa using h, hs, by simpa using he⟩
  | cons y more ih =>
    intro hmore
    obtain ⟨s', hs', htiers, hinline⟩ := hmore y (by simp)
    have hloose : op.isLoose .comma = true := by
      simp [Node.isLoose, loose_of_word hop (by rw [hk]; rfl), hk]
    have hjoined : ∀ m ∈ s ++ op :: s', isSeparator m = false := by
      simpa [or_imp, forall_and] using ⟨hs, inline_of_kind (by simp [hk]), hinline⟩
    have hnext := ih (h.append (.word hop (by rw [hk]; decide) hs')) hjoined
      (.more he hloose htiers) fun z hz => hmore z (by simp [hz])
    simpa using hnext

/-- Operands with commas between them are read as the elements of a comma list. -/
theorem elements_of_parts (hop : op.IsWord) (hk : op.kind = .comma) {x y : ι} {more : List ι}
    (h : ∀ z ∈ x :: y :: more, IsElement (words z) (tree z)) :
    ∃ s', Spelled (Text.spread op.text ((x :: y :: more).map words)) s' ∧ (∀ m ∈ s', isSeparator m = false) ∧
      Elements (Tiers (Signed Primary)) s' op ((x :: y :: more).map tree) := by
  have hloose : op.isLoose .comma = true := Node.isLoose_iff.2 ⟨loose_of_word hop (by rw [hk]; rfl), hk⟩
  obtain ⟨u, hu, htiers, hinline⟩ := h x (by simp)
  obtain ⟨u', hu', htiers', hinline'⟩ := h y (by simp)
  have hjoined : ∀ m ∈ u ++ op :: u', isSeparator m = false := by
    simpa [or_imp, forall_and] using ⟨hinline, inline_of_kind (by simp [hk]), hinline'⟩
  obtain ⟨s', hs', hinline'', helements⟩ := elements_more hop hk (hu.append (.word hop (by rw [hk]; decide) hu')) hjoined
    (.two htiers hloose htiers') more fun z hz => h z (by simp [hz])
  exact ⟨s', by simpa [spread_cons] using hs', hinline'', by simpa using helements⟩

end Parts

/-- A word that is an operand is read as it is. -/
theorem leaf_reading (hn : n.IsWord) (hr : n.resolved = true) : ∃ s, Spelled n.words s ∧ Reading s n := by
  have hkind : n.kind = .ident ∨ n.kind ∈ [Kind.number, .doubleQuoted, .singleQuoted, .backquoted, .brk, .cont] := by
    rw [hn.resolved_eq] at hr
    revert hr
    cases n.kind <;> decide
  have hfacts : writing n.kind = .leaf ∧ standsAlone n.kind = true ∧ n.kind ∉ unwrittenKinds := by
    rcases hkind with hk | hk
    · rw [hk]; decide
    · revert hk
      cases n.kind <;> decide
  have hwords : n.words = [n.text] := by rw [Node.words_eq, hfacts.1]
  refine ⟨[n], by rw [hwords]; exact spelled_word hn hfacts.2.2, ?_⟩
  refine .of_primary (by simp [isSeparator, Node.isLoose, hr]) (fun _ => rfl) ?_ hfacts.2.1 fun hsettled => ?_
  · intro hc
    have hident : n.kind = .ident := by
      refine hkind.resolve_right fun hk => ?_
      have hcallee := (Statement.isCallee_iff.1 hc).2
      revert hk hcallee
      cases n.kind <;> decide
    exact .callee (.name (Node.isResolved_iff.2 ⟨hr, hident⟩))
  · rcases hkind with hk | hk
    · exact .callable (.callee (.name (Node.isResolved_iff.2 ⟨hr, hk⟩))) hsettled
    · refine .leaf hr ?_
      revert hk
      cases n.kind <;> decide

/-- A group of trees that are read back is read back. -/
theorem group_reading {closing : Text} (hr : n.resolved = true) (hk : writing n.kind = .brackets n.text closing)
    (h : ∀ c ∈ n.children, c.Settled ∧ ∃ s, Spelled c.words s ∧ Reading s c) :
    ∃ s, Spelled n.words s ∧ Reading s n := by
  obtain ⟨p, hp, hsentences⟩ := sentences_of_readings h
  have hwords : n.words = n.text :: (Text.spread (";" : Text) (n.children.map words) ++ closing :: []) := by
    rw [Node.words_eq, hk]
  refine ⟨[n], by rw [hwords]; exact .group hr hk hp hsentences .nil, ?_⟩
  refine .of_primary (by simp [isSeparator, Node.isLoose, hr]) (fun _ => rfl) ?_ (by simp [standsAlone, hk]) ?_
  · intro hc
    rcases Node.brackets_kind hk with hkind | hkind
    · exact .callee (.group (Node.isResolved_iff.2 ⟨hr, hkind⟩))
    · have hcallee := (Statement.isCallee_iff.1 hc).2
      rw [hkind] at hcallee
      exact absurd hcallee (by decide)
  · intro hsettled
    rcases Node.brackets_kind hk with hkind | hkind
    · exact .callable (.callee (.group (Node.isResolved_iff.2 ⟨hr, hkind⟩))) hsettled
    · exact .leaf hr (by rw [hkind]; decide)

/-- What can be called is read as an operand. -/
theorem calls_reading (hs : ∀ m ∈ s, isSeparator m = false) (hn : n.kind = .function ∨ n.kind = .apply)
    (h : Calls s n) : Reading s n := by
  have halone : standsAlone n.kind = true := by rcases hn with hn | hn <;> rw [hn] <;> rfl
  refine .of_primary hs ?_ (fun _ => h) halone fun hsettled => .callable h hsettled
  rintro (hk | hk) <;> rw [hk] at hn <;> simp at hn

/-- The words of a readable tree spell a statement that is read as the tree. -/
theorem readable_spelled (h : n.Readable) : ∃ s, Spelled n.words s ∧ Reading s n := by
  induction h with
  | leaf hn hr => exact leaf_reading hn hr
  | group hr hk _ hs ih => exact group_reading hr hk fun c hc => ⟨hs c hc, ih c hc⟩
  | @function fn params hf hk _ hpk ih =>
    obtain ⟨s, hs, hr⟩ := ih
    obtain rfl := hr.bracket (.inl (Node.isResolved_iff.1 hpk).2)
    have hfn := Node.isLoose_iff.1 hk
    refine ⟨[fn, params], ?_, calls_reading ?_ (.inl rfl) (.callee (.function hk hpk))⟩
    · rw [Node.words_eq]
      simpa [Node.into, writing] using Spelled.word hf (by rw [hfn.2]; decide) hs
    · simpa [or_imp, forall_and] using ⟨inline_of_kind (by simp [hfn]), hr.inline params (by simp)⟩
  | @functionBody fn params body hf hk _ hpk _ hbk ihp ihb =>
    obtain ⟨s, hs, hr⟩ := ihp
    obtain ⟨s', hs', hr'⟩ := ihb
    obtain rfl := hr.bracket (.inl (Node.isResolved_iff.1 hpk).2)
    obtain rfl := hr'.bracket (.inr (Node.isResolved_iff.1 hbk).2)
    have hfn := Node.isLoose_iff.1 hk
    refine ⟨[fn, params, body], ?_, calls_reading ?_ (.inl rfl) (.callee (.functionBody hk hpk hbk))⟩
    · rw [Node.words_eq]
      simpa [Node.into, writing] using Spelled.word hf (by rw [hfn.2]; decide) (hs.append hs')
    · simpa [or_imp, forall_and] using
        ⟨inline_of_kind (by simp [hfn]), hr.inline params (by simp), hr'.inline body (by simp)⟩
  | @call f args _ hk _ hak ihf iha =>
    obtain ⟨s, hs, hr⟩ := ihf
    obtain ⟨s', hs', hr'⟩ := iha
    obtain rfl := hr'.bracket (.inl (Node.isResolved_iff.1 hak).2)
    refine ⟨s ++ [args], ?_, calls_reading ?_ (.inr rfl) (.call (hr.calls hk) hak)⟩
    · rw [Node.words_eq]
      simpa [Node.into, writing] using hs.append hs'
    · simpa [or_imp, forall_and] using ⟨hr.inline, hr'.inline args (by simp)⟩
  | @sign op x kind hop hk _ hsx hkx ih =>
    obtain ⟨s, hs, hr⟩ := ih
    obtain ⟨u, hu, hprimary, hinline⟩ := hr.operand hs hsx hkx kind
    have hfacts : ∀ k kind, Statement.unary? k = some kind → writing kind = .before ∧
        k ∉ unwrittenKinds ∧ k ≠ .separator ∧ k ≠ .eof ∧ kind ≠ .comma := by
      intro k kind h
      rcases Statement.unary?_eq_some h with ⟨rfl, rfl⟩ | ⟨rfl, rfl⟩ <;> decide
    obtain ⟨hbefore, hwritten, hsep, heof, hcomma⟩ := hfacts _ _ hk
    have hsigned : Signed Primary (op :: u) (op.into kind op.text [x]) := signed_of_sign hop hk hprimary
    refine ⟨op :: u, ?_, .of_derives ?_ ?_ (fun h => absurd h hcomma) (derives_of_tiers ?_)⟩
    · rw [Node.words_eq]
      simpa [Node.into, hbefore] using Spelled.word hop hwritten hu
    · exact List.forall_mem_cons.2 ⟨inline_of_kind ⟨hsep, heof⟩, hinline⟩
    · simp [standsAlone, Node.into, hbefore]
    · exact .single (.single (.single (.single hsigned)))
  | @operation op x y hop hk _ hsx hkx _ hsy hky ihx ihy =>
    obtain ⟨s, hs, hr⟩ := ihx
    obtain ⟨s', hs', hr'⟩ := ihy
    obtain ⟨u, hu, hprimary, hinline⟩ := hr.operand hs hsx hkx op.kind
    obtain ⟨u', hu', hprimary', hinline'⟩ := hr'.operand hs' hsy hky op.kind
    have hfacts : ∀ k ∈ Node.operatorKinds, writing k = .between ∧ Node.isOperand k = false ∧
        k ∉ unwrittenKinds ∧ k ≠ .separator ∧ k ≠ .eof ∧ k ≠ .comma := by decide
    obtain ⟨hbetween, hoperand, hwritten, hsep, heof, hcomma⟩ := hfacts _ hk
    have hderives := derives_of_tiers (tiers_operation (loose_of_word hop hoperand) hk hprimary hprimary')
    refine ⟨u ++ op :: u', ?_, .of_derives ?_ ?_ (fun h => absurd h hcomma) hderives⟩
    · rw [Node.words_eq]
      simpa [Node.into, hbetween, Text.spread] using hu.append (.word hop hwritten hu')
    · simpa [or_imp, forall_and] using ⟨hinline, inline_of_kind ⟨hsep, heof⟩, hinline'⟩
    · simp [standsAlone, Node.into, hbetween]
  | @listing op x y more hop hk _ hs hkc ih =>
    have hparts : ∀ c ∈ x :: y :: more, IsElement (wrapped .comma c.kind c.words) (id c) := by
      intro c hc
      obtain ⟨s, hspelled, hr⟩ := ih c hc
      obtain ⟨u, hu, hprimary, hinline⟩ := hr.operand hspelled (hs c hc) (hkc c hc) .comma
      exact ⟨u, hu, tiers_of_primary hprimary, hinline⟩
    obtain ⟨s', hs', hinline, helements⟩ := elements_of_parts hop hk hparts
    rw [List.map_id] at helements
    refine ⟨s', ?_, .of_derives hinline rfl (fun _ => .many helements) (.plain (.single (.many helements)))⟩
    rw [Node.words_eq]
    simpa [Node.into, writing] using hs'
  | @assign op x y hop hk _ hsx _ hsy ihx ihy =>
    obtain ⟨s, hs, hr⟩ := ihx
    obtain ⟨s', hs', hr'⟩ := ihy
    obtain ⟨u, hu, hlisting, hinline⟩ := hr.side hs hsx (.inl rfl)
    obtain ⟨u', hu', hlisting', hinline'⟩ := hr'.side hs' hsy (.inl rfl)
    have hloose : op.resolved = false := loose_of_word hop (by rw [hk]; rfl)
    have hassigned : Statement.assigned x op y = op.into .assign op.text [x, y] := by
      simp [Statement.assigned, hk, Kind.compound?]
    refine ⟨u ++ op :: u', ?_, .of_derives ?_ rfl (by simp [Node.into]) ?_⟩
    · rw [Node.words_eq]
      simpa [Node.into, writing, Text.spread] using hu.append (.word hop (by rw [hk]; decide) hu')
    · simpa [or_imp, forall_and] using ⟨hinline, inline_of_kind (by simp [hk]), hinline'⟩
    · rw [← hassigned]
      exact .plain (.more hlisting hloose (by rw [hk]; decide) (.single hlisting'))
  | @bareReturn op hop hk =>
    have hloose : op.isLoose .ret = true := Node.isLoose_iff.2 ⟨loose_of_word hop (by rw [hk]; rfl), hk⟩
    refine ⟨[op], ?_, .of_derives ?_ rfl (by simp [Node.into]) (.bare hloose)⟩
    · rw [Node.words_eq]
      simpa [Node.into, writing] using spelled_word hop (by rw [hk]; decide)
    · simpa using inline_of_kind (by simp [hk])
  | @ret op x hop hk _ hsx ih =>
    obtain ⟨s, hs, hr⟩ := ih
    obtain ⟨u, hu, hlisting, hinline⟩ := hr.side hs hsx (.inr rfl)
    have hloose : op.isLoose .ret = true := Node.isLoose_iff.2 ⟨loose_of_word hop (by rw [hk]; rfl), hk⟩
    refine ⟨op :: u, ?_, .of_derives ?_ rfl (by simp [Node.into]) (.operand hloose (.plain (.single hlisting)))⟩
    · rw [Node.words_eq]
      simpa [Node.into, writing] using Spelled.word hop (by rw [hk]; decide) hu
    · exact List.forall_mem_cons.2 ⟨inline_of_kind (by simp [hk]), hinline⟩

end Tree

end Kettle
