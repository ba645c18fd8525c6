/-
Compound assignment. `x += (y)` stands for `x = (x + (y))`: the two are parsed to the same tree, with the same
complaints in the same order, whatever `y` is, if only it is scanned to its end, its brackets are well nested, and it
does not go too deep. The parentheses of the longer one are dropped again, and the statements in those around `y` are
read alike in both. The longer one has a level of brackets more.
-/
import Kettle.Proofs.Token.Fragment
import Kettle.Proofs.Tree.Depth
import Kettle.Proofs.Tree.Layout

namespace Kettle

namespace Tree

open Statement (Derives Primary Signed Tiers)
open Event (halt? reports items)

variable {limits : Limits} {source : Text} {s : Statement} {lead inner seps : List Node}
variable {opener closer n g host : Node} {depth : Nat}

/-! ## Words at no place -/

/-- The node of a word at no place. -/
def wordNode (kind : Kind) (text : Text) : Node := ⟨kind, text, [], Node.isOperand kind, .start []⟩

theorem ofToken_eq_wordNode {kind : Kind} {text : Text} (h : kind = .ident → Node.keywords.lookup text = none) :
    Node.ofToken ⟨kind, text, .start []⟩ = wordNode kind text := by
  have hkind : Node.kindOf ⟨kind, text, .start []⟩ = kind := by
    unfold Node.kindOf
    split
    · rename_i hident
      simp only at hident
      rw [h hident, hident]
      rfl
    · rfl
  rw [Node.ofToken, hkind, wordNode]

theorem isToken_wordNode {kind : Kind} {text : Text} (h : kind = .ident → Node.keywords.lookup text = none) :
    IsToken (wordNode kind text) := ⟨_, (ofToken_eq_wordNode h).symm⟩

/-- Nodes in parentheses. -/
def parenthesized (ns : List Node) : List Node := wordNode .lpar "(" :: (ns ++ [wordNode .rpar ")"])

/-- Nodes that can stand in parentheses: they are tokens, their brackets are well nested, and the end of the source is
not among them. -/
structure Enclosable (ns : List Node) : Prop where
  nested : WellNested ns
  tokens : ∀ n ∈ ns, IsToken n
  inside : ∀ n ∈ ns, n.kind ≠ .eof

/-! ## Statements that end with a group -/

theorem settle_of_derives (hs : ∀ m ∈ s, m.Delivered) (hshallow : s.exhausts limits.nodes = false) (h : Derives s n) :
    settle limits source s = [.item n] := by
  rw [settle, hshallow, (Statement.check_reduce_eq_ok_iff hs).2 h]
  rfl

theorem group_others {build : Node → List Node → Events Node} (h : ∀ n ∈ lead, n.kind ∉ bracketKinds)
    (es : Events Node) : group build none (lead.map .item ++ es) = lead.map .item ++ group build none es := by
  induction lead with
  | nil => rfl
  | cons n lead ih =>
    rw [List.map_cons, List.cons_append, group_other (h n (by simp)), ih fun m hm => h m (by simp [hm])]
    rfl

theorem split_reports (current : List Node) (cs : List Complaint) (es : Events Node) :
    split current (cs.map .report ++ es) = cs.map .report ++ split current es := by
  induction cs with
  | nil => rfl
  | cons c cs ih => exact congrArg (List.cons _) ih

theorem split_separators (h : ∀ n ∈ seps, isSeparator n = true) (current : List Node) :
    split current (seps.map .item) = flush current := by
  induction seps generalizing current with
  | nil => rfl
  | cons n seps ih =>
    rw [List.map_cons, split, if_pos (h n (by simp)), ih fun m hm => h m (by simp [hm])]
    simp [flush]

theorem each_reports {f : Statement → Events Node} (cs : List Complaint) (es : Events Statement) :
    Event.each f (cs.map .report ++ es) = cs.map .report ++ Event.each f es := by
  induction cs with
  | nil => rfl
  | cons c cs ih => exact congrArg (List.cons _) ih

/-- Some words, something in parentheses and separators behind it: the words come first, then what is built of the
parentheses, and if that is no fault, the separators. -/
theorem group_statement {build : Node → List Node → Events Node} (hlead : ∀ n ∈ lead, n.kind ∉ bracketKinds)
    (hinner : Enclosable inner) (hseps : ∀ n ∈ seps, isSeparator n = true) :
    group build none ((lead ++ parenthesized inner ++ seps).map .item) =
      lead.map .item ++ Event.chain (build (wordNode .lpar "(") inner) (seps.map .item) := by
  have hseparators : group build none (seps.map .item) = seps.map .item := by
    have hall := @group_separators build seps hseps []
    rwa [List.append_nil, group, List.append_nil] at hall
  have hlist : (lead ++ parenthesized inner ++ seps).map Event.item =
      (lead.map .item ++ .item (wordNode .lpar "(") :: (inner.map .item ++ .item (wordNode .rpar ")") ::
        seps.map .item) : Events Node) := by
    simp [parenthesized]
  rw [hlist, group_others hlead, group_pair (isToken_wordNode (by decide)) rfl hinner.nested hinner.inside, hseparators]

/-- A statement of some words and a group comes to a tree; the complaints are those about the inside of the group. -/
theorem close_statement {cs : List Complaint} (hlead : ∀ n ∈ lead, n.kind ∉ bracketKinds ∧ isSeparator n = false)
    (hinner : Enclosable inner) (hseps : ∀ n ∈ seps, isSeparator n = true)
    (hbuild : build limits depth (wordNode .lpar "(") inner = ⟨cs, .ok g⟩) (hg : g.resolved = true)
    (hsettle : settle limits source (lead ++ [g]) = [.item n]) (host : Node) :
    close host (statements limits source (group (fun n ns => (build limits depth n ns).events) none
        ((lead ++ parenthesized inner ++ seps).map .item))) = ⟨cs, .ok (host.into host.kind host.text [n])⟩ := by
  have hevents : (build limits depth (wordNode .lpar "(") inner).events = cs.map .report ++ [.item g] := by
    rw [hbuild]
    rfl
  have hhalt : halt? (cs.map .report ++ [.item g] : Events Node) = none := by
    rw [Event.halt?_append, Event.halt?_map_report]
    rfl
  have hsplit : split [] (lead.map .item ++ (cs.map .report ++ [.item g] ++ seps.map .item)) =
      cs.map .report ++ [.item (lead ++ [g])] := by
    rw [split_others fun n hn => (hlead n hn).2, List.append_assoc, split_reports, List.singleton_append, split,
      if_neg (by simp [isSeparator, Node.isLoose, hg]), split_separators hseps, flush]
    simp
  rw [group_statement (fun n hn => (hlead n hn).1) hinner hseps, hevents, Event.chain_eq_append hhalt, statements, hsplit,
    each_reports, Event.each, hsettle]
  rw [close, Event.outcome, Event.halt?_append, Event.halt?_map_report, Event.reports_append, Event.items_append,
    Event.reports_map_report, Event.items_map_report]
  simp [Event.each, Event.chain, halt?, reports, items, Except.map]

/-- What stops the building of a group stops that of the statement it is in. -/
theorem close_statement_error {cs : List Complaint} {e : Fault}
    (hlead : ∀ n ∈ lead, n.kind ∉ bracketKinds ∧ isSeparator n = false) (hinner : Enclosable inner)
    (hseps : ∀ n ∈ seps, isSeparator n = true)
    (hbuild : build limits depth (wordNode .lpar "(") inner = ⟨cs, .error e⟩) (host : Node) :
    close host (statements limits source (group (fun n ns => (build limits depth n ns).events) none
        ((lead ++ parenthesized inner ++ seps).map .item))) = ⟨cs, .error e⟩ := by
  have hevents : (build limits depth (wordNode .lpar "(") inner).events = cs.map .report ++ [.halt e] := by
    rw [hbuild]
    rfl
  have hhalt : halt? (cs.map .report ++ [.halt e] : Events Node) = some e := by
    rw [Event.halt?_append, Event.halt?_map_report]
    rfl
  have hchain : Event.chain (cs.map .report ++ [.halt e] : Events Node) (seps.map .item) =
      cs.map .report ++ [.halt e] := Event.chain_map_report cs _ _
  rw [group_statement (fun n hn => (hlead n hn).1) hinner hseps, hevents, hchain, statements,
    split_others fun n hn => (hlead n hn).2, split_reports, split, each_reports, Event.each, close, Event.outcome, hhalt,
    Event.reports_append, Event.reports_map_report]
  simp [reports, Except.map]

/-! ## Phrases -/

/-- The nodes of a name, an operator and something in parentheses. -/
def phrase (x : Text) (op : Node) (inner : List Node) : List Node := [wordNode .ident x, op] ++ parenthesized inner

section

variable {x text : Text} {kind : Kind} {y : Node}

theorem operator_facts (hk : kind ∈ Node.operatorKinds ++ Statement.assignKinds) : kind ∉ bracketKinds ∧
    Node.isOperand kind = false ∧ kind ≠ .separator ∧ kind ≠ .eof ∧ kind ≠ .ident := by
  have hall : ∀ k ∈ Node.operatorKinds ++ Statement.assignKinds, k ∉ bracketKinds ∧ Node.isOperand k = false ∧
      k ≠ .separator ∧ k ≠ .eof ∧ k ≠ .ident := by decide
  exact hall kind hk

theorem ident_not_bracket (x : Text) : (wordNode .ident x).kind ∉ bracketKinds := by
  show Kind.ident ∉ bracketKinds
  decide

theorem isToken_operator (hk : kind ∈ Node.operatorKinds ++ Statement.assignKinds) (text : Text) :
    IsToken (wordNode kind text) := isToken_wordNode fun h => absurd h (operator_facts hk).2.2.2.2

theorem Enclosable.phrase (h : Enclosable inner) (hx : Node.keywords.lookup x = none)
    (hk : kind ∈ Node.operatorKinds ++ Statement.assignKinds) (text : Text) :
    Enclosable (phrase x (wordNode kind text) inner) where
  nested := .other (ident_not_bracket x) (.other (operator_facts hk).1 (.pair rfl h.nested .nil))
  tokens := by
    have hparens : IsToken (wordNode .lpar "(") ∧ IsToken (wordNode .rpar ")") :=
      ⟨isToken_wordNode (by decide), isToken_wordNode (by decide)⟩
    simpa [Tree.phrase, parenthesized, or_imp, forall_and] using
      ⟨isToken_wordNode fun _ => hx, isToken_operator hk text, hparens.1, h.tokens, hparens.2⟩
  inside := by
    simpa [Tree.phrase, parenthesized, or_imp, forall_and, wordNode] using ⟨(operator_facts hk).2.2.2.1, h.inside⟩

theorem bracketDepth_phrase (h : Enclosable inner) (x : Text) (hk : kind ∈ Node.operatorKinds ++ Statement.assignKinds)
    (text : Text) : bracketDepth (phrase x (wordNode kind text) inner) = bracketDepth inner + 1 := by
  have hpair : bracketDepth (parenthesized inner) = max (bracketDepth inner + 1) (bracketDepth []) :=
    bracketDepth_pair rfl h.nested []
  rw [Tree.phrase, List.cons_append, bracketDepth_other (ident_not_bracket x), List.cons_append,
    bracketDepth_other (n := wordNode kind text) (operator_facts hk).1, List.nil_append, hpair, bracketDepth]
  omega

/-- A group is an operand: the expression in it, or the group itself. -/
theorem exists_primary (hg : g.isResolved .lpar = true) : ∃ y, Primary [g] y := by
  by_cases h : ∃ only, g.Encloses only
  · obtain ⟨only, honly⟩ := h
    exact ⟨only, .enclosed honly⟩
  · exact ⟨g, .callable (.callee (.group hg)) (not_exists.1 h)⟩

theorem primary_ident (x : Text) : Primary [wordNode .ident x] (wordNode .ident x) :=
  .callable (.callee (.name rfl)) fun only h => by cases h.1

theorem phrase_delivered (hx : Node.keywords.lookup x = none) (hk : kind ∈ Node.operatorKinds ++ Statement.assignKinds)
    (hg : g.Delivered) : ∀ m ∈ [wordNode .ident x, wordNode kind text, g], m.Delivered := by
  simpa using ⟨(isToken_wordNode fun _ => hx).delivered, (isToken_operator hk text).delivered, hg⟩

theorem settle_operation (hx : Node.keywords.lookup x = none) (hk : kind ∈ Node.operatorKinds) (hg : g.Delivered)
    (hlpar : g.kind = .lpar) (hy : Primary [g] y) (text : Text) :
    settle limits source [wordNode .ident x, wordNode kind text, g] =
      [.item ((wordNode kind text).into kind text [wordNode .ident x, y])] := by
  have hk' := List.mem_append_left Statement.assignKinds hk
  have hloose : (wordNode kind text).resolved = false := (operator_facts hk').2.1
  have hderives := derives_of_tiers (tiers_operation hloose hk (primary_ident x) hy)
  have hplain : ∀ k ∈ Node.operatorKinds, k.compound? = none := by decide
  refine settle_of_derives (phrase_delivered hx hk' hg) (Statement.exhausts_of_derives (phrase_delivered hx hk' hg) ?_
    hderives) hderives
  simpa [hlpar] using ⟨(rfl : Kind.ident.compound? = none), hplain kind hk, (rfl : Kind.lpar.compound? = none)⟩

theorem settle_assignment (hx : Node.keywords.lookup x = none) (hk : kind ∈ Statement.assignKinds) (hg : g.Delivered)
    (hnodes : 0 < limits.nodes) (hy : Primary [g] y) (text : Text) :
    settle limits source [wordNode .ident x, wordNode kind text, g] =
      [.item (Statement.assigned (wordNode .ident x) (wordNode kind text) y)] := by
  have hk' := List.mem_append_right Node.operatorKinds hk
  have hI : ∀ m ∈ [wordNode .ident x, wordNode kind text, g], m.Delivered := phrase_delivered hx hk' hg
  have hassigning : ∀ make : Node → Node → Node → Node, Statement.Sentence make (Signed Primary)
      ([wordNode .ident x] ++ wordNode kind text :: [g]) (make (wordNode .ident x) (wordNode kind text) y) := fun make =>
    .plain (.more (.single (tiers_of_primary (primary_ident x))) (operator_facts hk').2.1 hk
      (.single (.single (tiers_of_primary hy))))
  refine settle_of_derives hI (Statement.exhausts_of_sentence hI (hassigning Statement.operation) fun n hn => ?_)
    (hassigning Statement.assigned)
  -- a name is copied, which has one level
  have hname : (wordNode .ident x).Finished := (hI _ (by simp)).finished rfl
  have hvalue : y.Finished := Statement.primary_finished [g] y (by simpa using hg) hy
  rw [Statement.eq_of_copied hname hvalue hn]
  exact hnodes

theorem phrase_lead (x : Text) (hk : kind ∈ Node.operatorKinds ++ Statement.assignKinds) (text : Text) :
    ∀ n ∈ [wordNode .ident x, wordNode kind text], n.kind ∉ bracketKinds ∧ isSeparator n = false := by
  obtain ⟨hbracket, -, hsep, heof, -⟩ := operator_facts hk
  refine List.forall_mem_cons.2 ⟨⟨ident_not_bracket x, rfl⟩, List.forall_mem_singleton.2 ?_⟩
  exact ⟨hbracket, inline_of_kind ⟨hsep, heof⟩⟩

end

/-! ## The two assignments -/

/-- The operators that assignments are compounded with: the rune, the kind of the operator, and the kind of the
assignment. -/
def compounds : List (Rune × Kind × Kind) :=
  [('+', .plus, .plusEq), ('-', .minus, .minusEq), ('*', .star, .starEq), ('/', .slash, .slashEq), ('%', .mod, .modEq)]

section

variable {x : Text} {r : Rune} {kind compound : Kind}

theorem compounds_facts (hop : (r, kind, compound) ∈ compounds) :
    kind ∈ Node.operatorKinds ∧ compound ∈ Statement.assignKinds ∧ compound.compound? = some kind ∧ kind ≠ .comma := by
  have hall : ∀ d ∈ compounds, d.2.1 ∈ Node.operatorKinds ∧ d.2.2 ∈ Statement.assignKinds ∧
      d.2.2.compound? = some d.2.1 ∧ d.2.1 ≠ .comma := by decide
  exact hall _ hop

/-- What nothing stops is built to a group. -/
theorem build_ok (h : halt? (build limits depth opener inner).events = none) : ∃ children,
    build limits depth opener inner = ⟨(build limits depth opener inner).complaints,
      .ok (opener.into opener.kind opener.text children)⟩ := by
  cases depth with
  | zero => cases h
  | succ depth =>
    cases hresult : (build limits (depth + 1) opener inner).result with
    | error e =>
      rw [build, halt?_close, close_eq_error hresult] at h
      cases h
    | ok g =>
      have hg := close_eq_ok hresult
      exact ⟨_, by rw [← hg, ← hresult]⟩

/-- A compound assignment comes to a tree if what is in the parentheses does. -/
theorem close_compound_ok (source : Text) {cs : List Complaint} {children : List Node}
    (hx : Node.keywords.lookup x = none) (hop : (r, kind, compound) ∈ compounds) (hnodes : 0 < limits.nodes) (hinner : Enclosable inner)
    (hbuild : build limits depth (wordNode .lpar "(") inner =
      ⟨cs, .ok ((wordNode .lpar "(").into .lpar "(" children)⟩)
    {y : Node} (hy : Primary [(wordNode .lpar "(").into .lpar "(" children] y)
    (hseps : ∀ n ∈ seps, isSeparator n = true) (host : Node) :
    close host (statements limits source (group (fun n ns => (build limits depth n ns).events) none
        ((phrase x (wordNode compound [r, '=']) inner ++ seps).map .item))) =
      ⟨cs, .ok (host.into host.kind host.text
        [Statement.assigned (wordNode .ident x) (wordNode compound [r, '=']) y])⟩ := by
  have hk' := (compounds_facts hop).2.1
  have hopener : (wordNode .lpar "(").kind.closer?.isSome := rfl
  have hg := build_delivered depth hopener hinner.tokens _ (congrArg Built.result hbuild)
  exact close_statement (phrase_lead x (List.mem_append_right _ hk') _) hinner hseps hbuild rfl
    (settle_assignment hx hk' hg hnodes hy _) host

/-- What is built of the nodes of a compound assignment is what is built of those of the assignment written out. -/
theorem close_compound (source : Text) (hx : Node.keywords.lookup x = none) (hop : (r, kind, compound) ∈ compounds)
    (hnodes : 0 < limits.nodes) (hinner : Enclosable inner) (hdepth : bracketDepth inner + 2 ≤ depth)
    (hseps : ∀ n ∈ seps, isSeparator n = true) (host : Node) :
    close host (statements limits source (group (fun n ns => (build limits depth n ns).events) none
        ((phrase x (wordNode compound [r, '=']) inner ++ seps).map .item))) =
      close host (statements limits source (group (fun n ns => (build limits depth n ns).events) none
        ((phrase x (wordNode .assign "=") (phrase x (wordNode kind [r]) inner) ++ seps).map .item))) := by
  obtain ⟨hk, hk', hcompound, hcomma⟩ := compounds_facts hop
  have hkind : kind ∈ Node.operatorKinds ++ Statement.assignKinds := List.mem_append_left _ hk
  obtain ⟨below, rfl⟩ := Nat.exists_eq_add_of_le' (show 1 ≤ depth by omega)
  obtain ⟨es, hbuilt⟩ := hinner.nested.built limits hinner.tokens hinner.inside (wordNode .lpar "(")
  let opener := wordNode .lpar "("
  have hoperation := hinner.phrase hx hkind [r]
  -- the inside of the outer parentheses of the longer one
  have houter : build limits (below + 1) opener (phrase x (wordNode kind [r]) inner) =
      close opener (statements limits opener.pos.source (group (fun n ns => (build limits below n ns).events) none
        ((phrase x (wordNode kind [r]) inner ++ []).map .item))) := by
    rw [List.append_nil]
    rfl
  cases hresult : (close opener es).result with
  | error e =>
    have hbuild : ∀ {depth : Nat}, bracketDepth inner < depth →
        build limits depth opener inner = ⟨reports es, .error e⟩ := fun h => by rw [hbuilt _ h, ← hresult]; rfl
    have hphrase := houter.trans (close_statement_error (phrase_lead x hkind [r]) hinner (by simp)
      (hbuild (show bracketDepth inner < below by omega)) opener)
    refine Eq.trans ?_ (close_statement_error (phrase_lead x (by decide) _) hoperation hseps hphrase host).symm
    exact close_statement_error (phrase_lead x (List.mem_append_right _ hk') _) hinner hseps (hbuild (by omega)) host
  | ok g =>
    obtain rfl : g = opener.into .lpar "(" (items es) := close_eq_ok hresult
    have hbuild : ∀ {depth : Nat}, bracketDepth inner < depth →
        build limits depth opener inner = ⟨reports es, .ok (opener.into .lpar "(" (items es))⟩ :=
      fun h => by rw [hbuilt _ h, ← hresult]; rfl
    have hg := build_delivered (below + 1) (show opener.kind.closer?.isSome from rfl) hinner.tokens _
      (congrArg Built.result (hbuild (show bracketDepth inner < below + 1 by omega)))
    obtain ⟨y, hy⟩ := exists_primary (g := opener.into .lpar "(" (items es)) rfl
    let operation := (wordNode kind [r]).into kind [r] [wordNode .ident x, y]
    -- inside the outer parentheses the operation is all there is, so that they stand for it
    have hphrase := houter.trans (close_statement (phrase_lead x hkind [r]) hinner (by simp)
      (hbuild (show bracketDepth inner < below by omega)) rfl (settle_operation hx hk hg rfl hy [r]) opener)
    have hdelivered := build_delivered (below + 1) (show opener.kind.closer?.isSome from rfl) hoperation.tokens _
      (congrArg Built.result hphrase)
    have hassigned : Statement.assigned (wordNode .ident x) (wordNode compound [r, '=']) y =
        Statement.assigned (wordNode .ident x) (wordNode .assign "=") operation := by
      unfold Statement.assigned
      rw [show (wordNode compound [r, '=']).kind.compound? = some kind from hcompound]
      rfl
    rw [close_compound_ok source hx hop hnodes hinner (hbuild (by omega)) hy hseps host, hassigned]
    exact (close_statement (phrase_lead x (by decide) _) hoperation hseps hphrase rfl
      (settle_assignment hx (by decide) hdelivered hnodes (.enclosed ⟨rfl, rfl, hcomma⟩) _) host).symm

end

/-! ## Sources -/

section

open Scan (ReadsAs)
open Token (label)

variable {source text : Text} {labels labels' : List (Kind × Text)} {pos : Position}

/-- The nodes of tokens of some kinds and texts, without comments and without layout. -/
def labelNodes (labels : List (Kind × Text)) : List Node :=
  (labels.filter fun l => !l.1.isComment).map fun l => bareNode (.ofToken ⟨l.1, l.2, .start []⟩)

theorem labelNodes_append (labels labels' : List (Kind × Text)) :
    labelNodes (labels ++ labels') = labelNodes labels ++ labelNodes labels' := by simp [labelNodes]

theorem labelNodes_tokens (ts : List Token) : labelNodes (ts.map label) = (tokenNodes ts).map bareNode := by
  rw [labelNodes, List.filter_map, List.map_map, tokenNodes, List.map_map]
  exact List.map_congr_left fun t _ => bareNode_ofToken rfl

/-- A word that is no separator has its node. -/
theorem labelNodes_cons {kind : Kind} (hcomment : kind.isComment = false) (hsep : kind ≠ .separator ∧ kind ≠ .eof)
    (hident : kind = .ident → Node.keywords.lookup text = none) (labels : List (Kind × Text)) :
    labelNodes ((kind, text) :: labels) = wordNode kind text :: labelNodes labels := by
  have hbare : bareNode (.ofToken ⟨kind, text, .start []⟩) = wordNode kind text := by
    rw [ofToken_eq_wordNode hident, bareNode, if_neg (by simp [isSeparator, Node.isLoose, wordNode, hsep])]
    rfl
  simp [labelNodes, hcomment, hbare]

/-- The kinds and texts of the tokens of a name, an operator and something in parentheses. -/
def phraseLabels (x : Text) (op : Kind × Text) (labels : List (Kind × Text)) : List (Kind × Text) :=
  (.ident, x) :: op :: (.lpar, "(") :: (labels ++ [(Kind.rpar, (")" : Text))])

theorem labelNodes_phraseLabels {x : Text} {kind : Kind} (hx : Node.keywords.lookup x = none)
    (hk : kind ∈ Node.operatorKinds ++ Statement.assignKinds) (text : Text) (labels : List (Kind × Text)) :
    labelNodes (phraseLabels x (kind, text) labels) = phrase x (wordNode kind text) (labelNodes labels) := by
  have hcomment : ∀ k ∈ Node.operatorKinds ++ Statement.assignKinds, k.isComment = false := by decide
  obtain ⟨-, -, hsep, heof, hident⟩ := operator_facts hk
  rw [phraseLabels, labelNodes_cons rfl (by decide) fun _ => hx,
    labelNodes_cons (hcomment kind hk) ⟨hsep, heof⟩ fun h => absurd h hident,
    labelNodes_cons rfl (by decide) (by decide), labelNodes_append, labelNodes_cons rfl (by decide) (by decide)]
  rfl

/-- A text is scanned to its end, and these are the nodes of its tokens, without layout. -/
def HasNodes (source text : Text) (ns : List Node) : Prop :=
  ∃ labels, ReadsAs source none text labels ∧ labelNodes labels = ns

/-- What a source is parsed to is a matter of its nodes. -/
theorem HasNodes.bare_parse {ns : List Node} (h : HasNodes source text ns) (limits : Limits) :
    bare.built (parse limits source text) = close (root []) (statements limits [] (group
      (fun n ns => (build limits limits.brackets n ns).events) none
        ((ns ++ [bareNode (.ofToken ⟨.eof, [], .start []⟩)]).map .item))) := by
  obtain ⟨labels, hreads, rfl⟩ := h
  obtain ⟨ts, pos, hscan, rfl⟩ := hreads .start
  have hending : (scan source text).ending = .finished pos := congrArg Scan.ending hscan
  have htokens : (scan source text).tokens = ts := congrArg Scan.tokens hscan
  rw [Tree.bare_parse, bare_nodes_finished hending, htokens, labelNodes_tokens, tokenNodes, groupAll]
  simp only [List.map_append, List.map_map, List.map_singleton, Function.comp_def]

/-- A text that has nodes comes to a tree, or it goes too deep. -/
theorem HasNodes.parse_cases {ns : List Node} (h : HasNodes source text ns) (limits : Limits) :
    (parse limits source text).result = .error (tooDeep source) ∨
      ∃ tree, (parse limits source text).result = .ok tree := by
  obtain ⟨labels, hreads, -⟩ := h
  obtain ⟨ts, pos, hscan, -⟩ := hreads .start
  exact parse_finished limits (show (scan source text).ending = .finished pos from congrArg Scan.ending hscan)

/-- Brackets that nest deeper than they may are refused. -/
theorem HasNodes.parse_tooDeep {ns : List Node} (h : HasNodes source text ns) (hns : Enclosable ns) {limits : Limits}
    (hdeep : limits.brackets < bracketDepth ns) : (parse limits source text).result = .error (tooDeep source) := by
  refine (h.parse_cases limits).resolve_right ?_
  rintro ⟨tree, htree⟩
  have hbare : (bare.built (parse limits source text)).result = .ok (bareNode tree) := by
    rw [Recast.built, htree]
    rfl
  rw [h.bare_parse, List.map_append] at hbare
  have hhalt := (halt?_statements_eq_none.1 (halt?_of_close hbare)).1
  exact absurd (hns.nested.bracketDepth_le hns.tokens hns.inside hhalt) (Nat.not_le.2 hdeep)

/-- The end of a source splits statements. -/
theorem isSeparator_end : ∀ n ∈ [bareNode (.ofToken ⟨.eof, [], .start []⟩)], isSeparator n = true :=
  List.forall_mem_singleton.2 rfl

theorem kind_bareNode (n : Node) : (bareNode n).kind = n.kind := bare_unnoticed.kind n

theorem IsToken.bareNode (h : IsToken n) : IsToken (bareNode n) := by
  obtain ⟨t, rfl⟩ := h
  unfold Tree.bareNode
  split
  · rename_i hsep
    refine ⟨⟨(Node.ofToken t).kind, [], .start []⟩, ?_⟩
    rcases (Node.isSeparator_loose hsep).2 with hk | hk <;> rw [hk] <;> rfl
  · exact ⟨_, Node.relocate_ofToken _ t⟩

/-- The nodes of a fragment and of the line break behind it, inside parentheses. -/
def fragmentNodes (source y : Text) : List Node := labelNodes (Scan.fragment source y)

/-- A fragment has its own nodes, and perhaps a separator. -/
theorem fragmentNodes_eq (source y : Text) : ∃ seps, seps.length ≤ 1 ∧ (∀ n ∈ seps, n = wordNode .separator []) ∧
    fragmentNodes source y = (tokenNodes (scan source y).tokens).map bareNode ++ seps := by
  rw [fragmentNodes, Scan.fragment, labelNodes_append, labelNodes_tokens, Scan.lineEnd]
  refine ⟨_, ?_, ?_, rfl⟩ <;> split
  · exact le_refl _
  · exact Nat.zero_le _
  · exact List.forall_mem_singleton.2 rfl
  · simp [labelNodes]

/-- Nodes without brackets are well nested, and nothing is open among them. -/
theorem wellNested_others (h : ∀ n ∈ lead, n.kind ∉ bracketKinds) : WellNested lead ∧ bracketDepth lead = 0 := by
  induction lead with
  | nil => exact ⟨.nil, rfl⟩
  | cons n lead ih =>
    obtain ⟨hwell, hdepth⟩ := ih fun m hm => h m (by simp [hm])
    exact ⟨.other (h n (by simp)) hwell, (bracketDepth_other (h n (by simp)) lead).trans hdepth⟩

theorem bracketDepth_fragmentNodes {y : Text} (h : WellNested (tokenNodes (scan source y).tokens)) :
    bracketDepth (fragmentNodes source y) = bracketDepth (tokenNodes (scan source y).tokens) := by
  obtain ⟨seps, -, hseps, heq⟩ := fragmentNodes_eq source y
  have hdepth := (@wellNested_others seps fun n hn => by rw [hseps n hn]; decide).2
  rw [heq, (h.map kind_bareNode).bracketDepth_append, bracketDepth_map kind_bareNode, hdepth, Nat.max_zero]

theorem length_fragmentNodes (source y : Text) :
    (fragmentNodes source y).length ≤ (tokenNodes (scan source y).tokens).length + 1 := by
  obtain ⟨seps, hlength, -, heq⟩ := fragmentNodes_eq source y
  rw [heq, List.length_append, List.length_map]
  omega

theorem enclosable_fragmentNodes {y : Text} (h : WellNested (tokenNodes (scan source y).tokens)) :
    Enclosable (fragmentNodes source y) := by
  obtain ⟨seps, -, hseps, heq⟩ := fragmentNodes_eq source y
  rw [heq]
  have hsep : IsToken (wordNode .separator []) := isToken_wordNode (by decide)
  refine ⟨(h.map kind_bareNode).append (wellNested_others fun n hn => by rw [hseps n hn]; decide).1,
    List.forall_mem_append.2 ⟨?_, fun n hn => hseps n hn ▸ hsep⟩,
    List.forall_mem_append.2 ⟨?_, fun n hn => by rw [hseps n hn]; decide⟩⟩
  · rintro n hn
    obtain ⟨m, hm, rfl⟩ := List.mem_map.1 hn
    obtain ⟨t, -, rfl⟩ := List.mem_map.1 hm
    exact IsToken.bareNode ⟨t, rfl⟩
  · rintro n hn
    obtain ⟨m, hm, rfl⟩ := List.mem_map.1 hn
    rw [kind_bareNode]
    exact tokenNodes_ne_eof source y m hm

end

end Tree

/-! ## Compound assignments and their long forms -/

/-- A compound assignment to a name; what is assigned is in parentheses, with a line break behind it. -/
def compoundForm (x : Text) (op : Rune) (y : Text) : Text := x ++ " " ++ [op] ++ "= (" ++ y ++ "\n)"

/-- The same assignment written out. -/
def longForm (x : Text) (op : Rune) (y : Text) : Text := x ++ " = (" ++ x ++ " " ++ [op] ++ " (" ++ y ++ "\n))"

section

open Scan (ReadsAs fragment readsAs_nil)

variable {source x y : Text} {r : Rune} {kind compound : Kind} {pos : Position}

theorem compounds_spell (hop : (r, kind, compound) ∈ Tree.compounds) :
    (Lexeme.Spells kind [r] ∧ kind.isComment = false) ∧ Lexeme.Spells compound [r, '='] ∧
      compound.isComment = false := by
  have hall : ∀ d ∈ Tree.compounds, ((d.1, d.2.1) ∈ Lexeme.singles ∧ d.2.1.isComment = false) ∧
      ((d.1, ('=' : Rune)), d.2.2) ∈ Lexeme.doubles ∧ d.2.2.isComment = false := by decide
  obtain ⟨⟨hsingle, hcomment⟩, hdouble, hcomment'⟩ := hall _ hop
  exact ⟨⟨.single hsingle, hcomment⟩, .double hdouble, hcomment'⟩

theorem hasNodes_compoundForm (hx : Lexeme.Spells .ident x) (hkeyword : Node.keywords.lookup x = none)
    (hop : (r, kind, compound) ∈ Tree.compounds) (hy : (scan source y).ending = .finished pos) :
    Tree.HasNodes source (compoundForm x r y)
      (Tree.phrase x (Tree.wordNode compound [r, '=']) (Tree.fragmentNodes source y)) := by
  obtain ⟨-, hspells, hcomment⟩ := compounds_spell hop
  have hform : compoundForm x r y = x ++ (' ' : Rune) :: ([r, '='] ++ (' ' : Rune) :: ('(' : Rune) ::
      (y ++ ('\n' : Rune) :: (')' : Rune) :: [])) := by
    simp [compoundForm, Text.ofString]
  have hkind := List.mem_append_right Node.operatorKinds (Tree.compounds_facts hop).2.1
  refine ⟨_, ?_, Tree.labelNodes_phraseLabels hkeyword hkind _ _⟩
  rw [hform]
  exact .word hx rfl (.word hspells hcomment (.fragment hy (readsAs_nil source _) _))

theorem hasNodes_longForm (hx : Lexeme.Spells .ident x) (hkeyword : Node.keywords.lookup x = none)
    (hop : (r, kind, compound) ∈ Tree.compounds) (hy : (scan source y).ending = .finished pos) :
    Tree.HasNodes source (longForm x r y) (Tree.phrase x (Tree.wordNode .assign "=")
      (Tree.phrase x (Tree.wordNode kind [r]) (Tree.fragmentNodes source y))) := by
  obtain ⟨⟨hspells, hcomment⟩, -⟩ := compounds_spell hop
  have hassign : Lexeme.Spells .assign "=" := .single (by decide)
  have hform : longForm x r y = x ++ (' ' : Rune) :: ("=" ++ (' ' : Rune) :: ('(' : Rune) :: (x ++ (' ' : Rune) ::
      ([r] ++ (' ' : Rune) :: ('(' : Rune) :: (y ++ ('\n' : Rune) :: (')' : Rune) :: (')' : Rune) :: [])))) := by
    simp [longForm, Text.ofString]
  have hlabels : Tree.phraseLabels x (kind, [r]) (fragment source y) ++ [(Kind.rpar, (")" : Text))] =
      (.ident, x) :: (kind, [r]) :: (.lpar, "(") ::
        (fragment source y ++ [(Kind.rpar, (")" : Text)), (Kind.rpar, (")" : Text))]) := by
    simp [Tree.phraseLabels]
  have hkind := List.mem_append_left Statement.assignKinds (Tree.compounds_facts hop).1
  refine ⟨Tree.phraseLabels x (.assign, "=") (Tree.phraseLabels x (kind, [r]) (fragment source y)), ?_, ?_⟩
  · rw [hform, Tree.phraseLabels, hlabels]
    refine .word hx rfl (.word hassign rfl (.paren (.inl ⟨rfl, rfl⟩) (.word hx rfl (.word hspells hcomment ?_))))
    exact .fragment hy (.paren (.inr ⟨rfl, rfl⟩) (readsAs_nil source _)) _
  · rw [Tree.labelNodes_phraseLabels hkeyword (by decide), Tree.labelNodes_phraseLabels hkeyword hkind,
      Tree.fragmentNodes]

/-- The nodes of a text whose brackets are well nested, with an operator before them, in parentheses. -/
theorem phrase_fragment (source : Text) (hkeyword : Node.keywords.lookup x = none)
    (hop : (r, kind, compound) ∈ Tree.compounds) (hnested : Tree.WellNested (Tree.tokenNodes (scan source y).tokens)) :
    Tree.Enclosable (Tree.phrase x (Tree.wordNode kind [r]) (Tree.fragmentNodes source y)) ∧
      Tree.bracketDepth (Tree.phrase x (Tree.wordNode kind [r]) (Tree.fragmentNodes source y)) =
        Tree.bracketDepth (Tree.tokenNodes (scan source y).tokens) + 1 := by
  have hinner := Tree.enclosable_fragmentNodes hnested
  have hk := List.mem_append_left Statement.assignKinds (Tree.compounds_facts hop).1
  exact ⟨hinner.phrase hkeyword hk _,
    by rw [Tree.bracketDepth_phrase hinner x hk, Tree.bracketDepth_fragmentNodes hnested]⟩

/-- The long form is refused where its brackets go too deep. -/
theorem parse_longForm_tooDeep (limits : Limits) (hx : Lexeme.Spells .ident x)
    (hkeyword : Node.keywords.lookup x = none) (hop : (r, kind, compound) ∈ Tree.compounds) (hy : (scan source y).ending = .finished pos)
    (hnested : Tree.WellNested (Tree.tokenNodes (scan source y).tokens))
    (hdeep : limits.brackets < Tree.bracketDepth (Tree.tokenNodes (scan source y).tokens) + 2) :
    (parse limits source (longForm x r y)).result = .error (Tree.tooDeep source) := by
  obtain ⟨hoperation, hdepth⟩ := phrase_fragment source hkeyword hop hnested
  refine (hasNodes_longForm hx hkeyword hop hy).parse_tooDeep (hoperation.phrase hkeyword (by decide) _) ?_
  rwa [Tree.bracketDepth_phrase hoperation x (by decide), hdepth]

/-- The compound form is refused where its brackets go too deep. -/
theorem parse_compoundForm_tooDeep (hx : Lexeme.Spells .ident x) (hkeyword : Node.keywords.lookup x = none)
    (hop : (r, kind, compound) ∈ Tree.compounds) (hy : (scan source y).ending = .finished pos)
    (hnested : Tree.WellNested (Tree.tokenNodes (scan source y).tokens)) {limits : Limits}
    (hdeep : limits.brackets < Tree.bracketDepth (Tree.tokenNodes (scan source y).tokens) + 1) :
    (parse limits source (compoundForm x r y)).result = .error (Tree.tooDeep source) := by
  have hinner := Tree.enclosable_fragmentNodes hnested
  have hk := List.mem_append_right Node.operatorKinds (Tree.compounds_facts hop).2.1
  refine (hasNodes_compoundForm hx hkeyword hop hy).parse_tooDeep (hinner.phrase hkeyword hk _) ?_
  rwa [Tree.bracketDepth_phrase hinner x hk, Tree.bracketDepth_fragmentNodes hnested]

/-- The compound form is parsed to a tree if nothing stops the building of what is in its parentheses. -/
theorem parse_compoundForm_ok {limits : Limits} (hx : Lexeme.Spells .ident x) (hkeyword : Node.keywords.lookup x = none)
    (hop : (r, kind, compound) ∈ Tree.compounds) (hy : (scan source y).ending = .finished pos)
    (hnested : Tree.WellNested (Tree.tokenNodes (scan source y).tokens)) (hnodes : 0 < limits.nodes)
    (hhalt : Event.halt? (Tree.build limits limits.brackets (Tree.wordNode .lpar "(")
      (Tree.fragmentNodes source y)).events = none) :
    ∃ t, (parse limits source (compoundForm x r y)).result = .ok t := by
  have hinner := Tree.enclosable_fragmentNodes hnested
  obtain ⟨children, hbuild⟩ := Tree.build_ok hhalt
  obtain ⟨v, hv⟩ := Tree.exists_primary (g := (Tree.wordNode .lpar "(").into .lpar "(" children) rfl
  have hclose := Tree.close_compound_ok [] hkeyword hop hnodes hinner hbuild hv Tree.isSeparator_end (Tree.root [])
  rw [← (hasNodes_compoundForm hx hkeyword hop hy).bare_parse limits] at hclose
  cases hresult : (parse limits source (compoundForm x r y)).result with
  | ok t => exact ⟨t, rfl⟩
  | error e =>
    have hbare := congrArg Tree.Built.result hclose
    rw [Tree.Recast.built, hresult] at hbare
    cases hbare

/-- As long as the brackets of `y` stay two levels below the limit, both forms have the same complaints in the same order,
and they are parsed to trees that are equal but for positions, or `y` goes too deep in both. -/
theorem forms_agree {limits : Limits} (hx : Lexeme.Spells .ident x) (hkeyword : Node.keywords.lookup x = none)
    (hop : (r, kind, compound) ∈ Tree.compounds) (hy : (scan source y).ending = .finished pos)
    (hnested : Tree.WellNested (Tree.tokenNodes (scan source y).tokens)) (hnodes : 0 < limits.nodes)
    (hlimit : Tree.bracketDepth (Tree.tokenNodes (scan source y).tokens) + 2 ≤ limits.brackets) :
    (parse limits source (compoundForm x r y)).complaints.map Complaint.cause =
        (parse limits source (longForm x r y)).complaints.map Complaint.cause ∧
      ((∃ t t', (parse limits source (compoundForm x r y)).result = .ok t ∧
          (parse limits source (longForm x r y)).result = .ok t' ∧ t.same t' = true) ∨
        (parse limits source (compoundForm x r y)).result = .error (Tree.tooDeep source) ∧
          (parse limits source (longForm x r y)).result = .error (Tree.tooDeep source)) := by
  have hinner := Tree.enclosable_fragmentNodes hnested
  rw [← Tree.bracketDepth_fragmentNodes hnested] at hlimit
  have hclose := Tree.close_compound [] hkeyword hop hnodes hinner hlimit Tree.isSeparator_end (Tree.root [])
  rw [← (hasNodes_compoundForm hx hkeyword hop hy).bare_parse limits,
    ← (hasNodes_longForm hx hkeyword hop hy).bare_parse limits] at hclose
  obtain ⟨hcauses, hagree⟩ := agree_of_bare hclose
  refine ⟨hcauses, hagree.cases.imp_right ?_⟩
  rintro ⟨f, f', hfault, hfault', -⟩
  have hshort := (hasNodes_compoundForm hx hkeyword hop hy).parse_cases limits
  have hlong := (hasNodes_longForm hx hkeyword hop hy).parse_cases limits
  simp only [hfault, hfault', reduceCtorEq, exists_false, or_false] at hshort hlong ⊢
  exact ⟨hshort, hlong⟩

end

/-- Compound assignment is its long form. For a name `x` that is no keyword, an operator and a text `y` that is scanned
to its end and whose brackets are well nested, if the long form is parsed to a tree, then the compound form is parsed to a
tree that is equal but for positions, and both have the same complaints in the same order; `y` may hold several
statements, lists, further compound assignments and statements that are dropped. There are trees where `y` has fewer
tokens than either limit. The long form has one level of brackets more around `y`, so that it is the first to be refused
where the brackets of `y` come near the limit. -/
theorem compound_assignment_is_its_long_form (limits : Limits) {source x y : Text} {op : Rune} {pos : Position}
    (hx : Lexeme.Spells .ident x) (hkeyword : Node.keywords.lookup x = none)
    (hop : op ∈ (['+', '-', '*', '/', '%'] : List Rune)) (hy : (scan source y).ending = .finished pos)
    (hnested : Tree.WellNested (Tree.tokenNodes (scan source y).tokens)) (hnodes : 0 < limits.nodes) :
    (∀ t', (parse limits source (longForm x op y)).result = .ok t' →
      (∃ t, (parse limits source (compoundForm x op y)).result = .ok t ∧ t.same t' = true) ∧
        (parse limits source (compoundForm x op y)).complaints.map Complaint.cause =
          (parse limits source (longForm x op y)).complaints.map Complaint.cause) ∧
    ((Tree.tokenNodes (scan source y).tokens).length + 2 ≤ limits.brackets →
      (Tree.tokenNodes (scan source y).tokens).length < limits.nodes →
        ∃ t', (parse limits source (longForm x op y)).result = .ok t') ∧
    (limits.brackets < Tree.bracketDepth (Tree.tokenNodes (scan source y).tokens) + 2 →
      (parse limits source (longForm x op y)).result = .error (Tree.tooDeep source)) ∧
    (limits.brackets < Tree.bracketDepth (Tree.tokenNodes (scan source y).tokens) + 1 →
      (parse limits source (compoundForm x op y)).result = .error (Tree.tooDeep source)) := by
  have hrunes : Tree.compounds.map Prod.fst = (['+', '-', '*', '/', '%'] : List Rune) := rfl
  rw [← hrunes] at hop
  obtain ⟨⟨r, kind, compound⟩, hcompound, rfl⟩ := List.mem_map.1 hop
  have hlong := parse_longForm_tooDeep limits hx hkeyword hcompound hy hnested
  refine ⟨fun t' ht' => ?_, fun hbrackets hfew => ?_, hlong,
    parse_compoundForm_tooDeep hx hkeyword hcompound hy hnested⟩
  · -- brackets that are too near the limit are refused, and the long form is not
    have hlimit : Tree.bracketDepth (Tree.tokenNodes (scan source y).tokens) + 2 ≤ limits.brackets := by
      by_contra hlimit
      cases ht'.symm.trans (hlong (Nat.lt_of_not_le hlimit))
    obtain ⟨hcauses, ⟨t, t'', ht, ht'', hsame⟩ | ⟨-, hdeep⟩⟩ :=
      forms_agree hx hkeyword hcompound hy hnested hnodes hlimit
    · cases ht'.symm.trans ht''
      exact ⟨⟨t, ht, hsame⟩, hcauses⟩
    · cases ht'.symm.trans hdeep
  · have hdepth := Tree.bracketDepth_le_length (Tree.tokenNodes (scan source y).tokens)
    have hlength := Tree.length_fragmentNodes source y
    have hinner := Tree.enclosable_fragmentNodes hnested
    obtain ⟨t, ht⟩ := parse_compoundForm_ok hx hkeyword hcompound hy hnested hnodes
      (Tree.halt?_build_few _ _ _ hinner.tokens (by omega) (by omega))
    obtain ⟨-, ⟨-, t', -, ht', -⟩ | ⟨hdeep, -⟩⟩ :=
      forms_agree hx hkeyword hcompound hy hnested hnodes (by omega)
    · exact ⟨t', ht'⟩
    · cases ht.symm.trans hdeep

theorem compound_assignment_is_its_long_form_nested : ∃ t t',
    (parse .standard [] "x += (a -= 1; (2 3), b\n)").result = .ok t ∧
      (parse .standard [] "x = (x + (a -= 1; (2 3), b\n))").result = .ok t' ∧ t.same t' = true ∧
      (parse .standard [] "x += (a -= 1; (2 3), b\n)").complaints.map Complaint.cause =
        (parse .standard [] "x = (x + (a -= 1; (2 3), b\n))").complaints.map Complaint.cause := by
  let word (kind : Kind) (text : Text) (column : Nat) : Node := .ofToken ⟨kind, text, ⟨1, column, []⟩⟩
  let lead := [word .ident "a" 1, word .minusEq "-=" 3, word .number "1" 6, word .separator ";" 7]
  let inner := [word .number "2" 10, word .number "3" 12]
  let rest := [word .comma "," 14, word .ident "b" 16]
  have hx : Lexeme.Spells .ident "x" := .word (by decide) (by simp)
  have hy : (scan [] "a -= 1; (2 3), b").ending = .finished ⟨1, 17, []⟩ := by decide +kernel
  have htokens : Tree.tokenNodes (scan [] "a -= 1; (2 3), b").tokens =
      lead ++ word .lpar "(" 9 :: (inner ++ word .rpar ")" 13 :: rest) := by decide +kernel
  have hnested : Tree.WellNested (Tree.tokenNodes (scan [] "a -= 1; (2 3), b").tokens) := by
    have hothers : ∀ ns ∈ [lead, inner, rest], ∀ n ∈ ns, n.kind ∉ Tree.bracketKinds := by decide
    have hwell : ∀ ns ∈ [lead, inner, rest], Tree.WellNested ns :=
      fun ns hns => (Tree.wellNested_others (hothers ns hns)).1
    rw [htokens]
    exact (hwell lead (by simp)).append (.pair rfl (hwell inner (by simp)) (hwell rest (by simp)))
  have hop : ('+' : Rune) ∈ (['+', '-', '*', '/', '%'] : List Rune) := by decide
  obtain ⟨hequal, htree, -⟩ :=
    compound_assignment_is_its_long_form .standard hx (by decide) hop hy hnested (by decide)
  rw [htokens] at htree
  obtain ⟨t', ht'⟩ := htree (by decide) (by decide)
  obtain ⟨⟨t, ht, hsame⟩, hcauses⟩ := hequal t' ht'
  exact ⟨t, t', ht, ht', hsame, hcauses⟩

/-- Parentheses that are as deep as they still may be in the compound form: the long form is refused. -/
theorem long_form_goes_too_deep_first : ∃ pos t,
    (scan [] (Tree.parens 599 [])).ending = .finished pos ∧
      Tree.WellNested (Tree.tokenNodes (scan [] (Tree.parens 599 [])).tokens) ∧
      (parse .standard [] (compoundForm "x" '+' (Tree.parens 599 []))).result = .ok t ∧
      (parse .standard [] (longForm "x" '+' (Tree.parens 599 []))).result = .error (Tree.tooDeep []) := by
  obtain ⟨c, last, ts, hscan, hnested, hdepth, hlength⟩ := Tree.scan_parens [] 599 []
  rw [Scan.scanFrom_nil] at hscan
  generalize Tree.parens 599 [] = y at hscan ⊢
  have htokens : (scan [] y).tokens = ts := by simp [hscan, Scan.prepend]
  have hy : (scan [] y).ending = .finished (c.position []) := by rw [hscan]; rfl
  rw [← htokens] at hnested hdepth hlength
  have hx : Lexeme.Spells .ident "x" := .word (by decide) (by simp)
  have hop : (('+' : Rune), Kind.plus, Kind.plusEq) ∈ Tree.compounds := by decide
  have hinner := Tree.enclosable_fragmentNodes hnested
  have hfew := Tree.length_fragmentNodes [] y
  have hinside : Tree.bracketDepth (Tree.fragmentNodes [] y) = 599 := by
    rw [Tree.bracketDepth_fragmentNodes hnested, hdepth]
  have hhalt : Event.halt? (Tree.build .standard Limits.standard.brackets (Tree.wordNode .lpar "(")
      (Tree.fragmentNodes [] y)).events = none := by
    have hnodes : (Tree.fragmentNodes [] y).length ≤ Limits.standard.nodes := by
      show _ ≤ 2500
      omega
    show Event.halt? (Tree.build .standard (599 + 1) _ _).events = none
    rw [Tree.halt?_build_succ hinner.tokens hnodes]
    exact hinner.nested.halt?_shallow hinner.tokens hinner.inside hnodes hinside.le
  obtain ⟨t, ht⟩ := parse_compoundForm_ok hx (by decide) hop hy hnested (by decide) hhalt
  refine ⟨_, t, hy, hnested, ht, parse_longForm_tooDeep _ hx (by decide) hop hy hnested ?_⟩
  rw [hdepth]
  decide

end Kettle
