/-
Complete entries and their brackets. Whether an entry is complete is told by one count of open brackets, which takes a
closing bracket of either sort for the end of the last one opened; the tree is built by counting the brackets of each
sort by themselves. As long as no closing bracket meets an open one of the other sort, the two agree: a complete entry
leaves no bracket open at any level, and an entry that leaves none open is complete, if a statement ends with it.
-/
import Kettle.Proofs.Tree.Compound
import Kettle.Proofs.Tree.Joined
import Kettle.Proofs.Tree.Provenance
import Kettle.Session.Entry

namespace Kettle

open Kettle.Tree (closer?_eq_some closer?_inj closer?_of_not_mem bracketKinds IsToken tokenNodes)

namespace Entry

variable {k : Kind} {stack stack' : List Kind} {kinds : List Kind}

/-! ## Brackets that do not cross -/

/-- The open brackets after one more token, the innermost first. Where none is open, a closing bracket is not counted,
and where one of the other sort is open, it crosses it. -/
def nest (stack : List Kind) (k : Kind) : Option (List Kind) :=
  if k.closer?.isSome then some (k :: stack)
  else if k = .rpar ∨ k = .rbrace then
    match stack with
    | [] => some []
    | opener :: stack => if opener.closer? = some k then some stack else none
  else some stack

/-- No closing bracket among some tokens meets an open one of the other sort. -/
def Uncrossed (ts : List Token) : Prop := ((ts.map Token.kind).foldlM nest []).isSome = true

/-- What one more token does to the open brackets. -/
theorem nest_cases (h : nest stack k = some stack') :
    (k.closer?.isSome = true ∧ stack' = k :: stack) ∨
    ((k = .rpar ∨ k = .rbrace) ∧ stack = [] ∧ stack' = []) ∨
    (∃ opener, opener.closer? = some k ∧ stack = opener :: stack') ∨
    k ∉ bracketKinds ∧ stack' = stack := by
  unfold nest at h
  split at h
  · rename_i hopen
    exact .inl ⟨hopen, (Option.some.inj h).symm⟩
  · rename_i hopen
    split at h
    · rename_i hclose
      cases stack with
      | nil => exact .inr (.inl ⟨hclose, rfl, (Option.some.inj h).symm⟩)
      | cons opener stack =>
        obtain ⟨hc, rfl⟩ := Option.ite_none_right_eq_some.1 h |>.imp_right Option.some.inj
        exact .inr (.inr (.inl ⟨opener, hc, rfl⟩))
    · rename_i hclose
      have hother := Tree.not_mem_bracketKinds (by simpa using hopen) (by simpa using hclose)
      exact .inr (.inr (.inr ⟨hother, (Option.some.inj h).symm⟩))

theorem nest_open (h : k.closer?.isSome = true) (stack : List Kind) : nest stack k = some (k :: stack) := by
  unfold nest
  rw [if_pos h]

theorem nest_close {opener : Kind} (h : opener.closer? = some k) (stack : List Kind) :
    nest (opener :: stack) k = some stack := by
  rcases closer?_eq_some h with ⟨rfl, rfl⟩ | ⟨rfl, rfl⟩ <;> rfl

theorem nest_other (h : k ∉ bracketKinds) (stack : List Kind) : nest stack k = some stack := by
  have hclose : ¬ (k = .rpar ∨ k = .rbrace) := by
    rintro (rfl | rfl) <;> exact h (by decide)
  unfold nest
  rw [closer?_of_not_mem h, if_neg (by simp), if_neg hclose]

/-- Where brackets do not cross, the count of open brackets is the number of brackets that are open. -/
theorem openAfter_nest (h : nest stack k = some stack') : openAfter stack.length k = stack'.length := by
  rcases nest_cases h with ⟨hopen, rfl⟩ | ⟨rfl | rfl, rfl, rfl⟩ | ⟨opener, hc, rfl⟩ | ⟨hother, rfl⟩
  · cases k <;> first | rfl | cases hopen
  · rfl
  · rfl
  · rcases closer?_eq_some hc with ⟨-, rfl⟩ | ⟨-, rfl⟩ <;> rfl
  · cases k <;> first | rfl | exact absurd (by decide) hother

theorem foldl_openAfter (h : kinds.foldlM nest stack = some stack') :
    kinds.foldl openAfter stack.length = stack'.length := by
  induction kinds generalizing stack with
  | nil => cases h; rfl
  | cons k kinds ih =>
    rw [List.foldlM_cons] at h
    obtain ⟨next, hnext, hrun⟩ := Option.bind_eq_some_iff.1 h
    rw [List.foldl_cons, openAfter_nest hnext, ih hrun]

/-! ## Brackets of nodes -/

/-- The brackets that are open behind some nodes, if those before them are open already. -/
def unclosedBy (stack : List Kind) (ns : List Node) : Option (List Kind) := (ns.map Node.kind).foldlM nest stack

theorem unclosedBy_cons {n : Node} {ns : List Node} : unclosedBy stack (n :: ns) = some stack' ↔
    ∃ next, nest stack n.kind = some next ∧ unclosedBy next ns = some stack' :=
  Option.bind_eq_some_iff

/-- A token and its node are alike as to brackets. -/
theorem nest_ofToken (stack : List Kind) (t : Token) : nest stack (Node.ofToken t).kind = nest stack t.kind := by
  show nest stack (Node.kindOf t) = nest stack t.kind
  unfold Node.kindOf
  split
  · rename_i hident
    have hwords : ∀ w ∈ Node.keywords, w.2 ∉ bracketKinds := by decide
    have hkind : (Node.keywords.lookup t.text).getD .ident ∉ bracketKinds := by
      cases hl : Node.keywords.lookup t.text with
      | none => decide
      | some k =>
        obtain ⟨before, after, hsplit, -⟩ := List.lookup_eq_some_iff.1 hl
        exact hwords (t.text, k) (by simp [hsplit])
    rw [nest_other hkind, hident, nest_other (by decide)]
  · rfl

theorem unclosedBy_tokenNodes (stack : List Kind) (ts : List Token) :
    unclosedBy stack (tokenNodes ts) = (ts.map Token.kind).foldlM nest stack := by
  induction ts generalizing stack with
  | nil => rfl
  | cons t ts ih =>
    have hcomment : t.kind.isComment = true → nest stack t.kind = some stack := by
      intro hc
      refine nest_other ?_ stack
      revert hc
      cases t.kind <;> decide
    cases hc : t.kind.isComment with
    | true =>
      rw [List.map_cons, List.foldlM_cons, hcomment hc]
      simpa [tokenNodes, hc] using ih stack
    | false =>
      have hnodes : tokenNodes (t :: ts) = .ofToken t :: tokenNodes ts := by simp [tokenNodes, hc]
      rw [hnodes, unclosedBy, List.map_cons, List.foldlM_cons, List.map_cons, List.foldlM_cons, nest_ofToken]
      cases nest stack t.kind with
      | none => rfl
      | some next => exact ih next

end Entry

namespace Tree

open Entry (nest nest_cases nest_open nest_close nest_other unclosedBy unclosedBy_cons)
open Event (halt? chain)

variable {build : Node → List Node → Events Node} {ns : List Node} {stack stack' above : List Kind} {c : Kind}

/-- While a bracket is open, what neither opens nor closes one of its sort is set aside. -/
theorem group_aside {p : Pending} {n : Node} (hopener : n.kind ≠ p.opener.kind)
    (hcloser : p.opener.kind.closer? ≠ some n.kind) (hend : n.kind ≠ .eof) (es : Events Node) :
    group build (some p) (.item n :: es) = group build (some ⟨p.opener, p.depth, n :: p.inner⟩) es := by
  rw [group, if_neg hopener, if_neg (Ne.symm hcloser), if_neg hend]
  rfl

/-- What becomes of an open bracket, with the brackets `above` it on the stack: some node closes it, with nothing left
open inside, or it is still open at the end of the source, with a complaint. -/
inductive Fate (build : Node → List Node → Events Node) (p : Pending) (above : List Kind) (ns : List Node)
    (stack : List Kind) : Prop where
  | closed {inner rest : List Node} {closer : Node} (hsplit : ns = inner ++ closer :: rest)
      (hinner : unclosedBy above inner = some []) (hrest : unclosedBy [] rest = some stack)
      (hgroup : ∀ es, group build (some p) (ns.map .item ++ es) =
        chain (build p.opener (p.inner.reverse ++ inner)) (group build none (rest.map .item ++ es))) :
      Fate build p above ns stack
  | left (hstack : stack ≠ []) (hgroup : ∀ eof : Node, eof.kind = .eof →
      ∃ es, group build (some p) (ns.map .item ++ [.item eof]) = .report p.unclosed :: es) : Fate build p above ns stack

/-- One node that is set aside. -/
theorem Fate.aside {p : Pending} {n : Node} {depth : Nat} {above' : List Kind}
    (h : Fate build ⟨p.opener, depth, n :: p.inner⟩ above' ns stack) (hnest : nest above n.kind = some above')
    (hgroup : ∀ es, group build (some p) (.item n :: es) = group build (some ⟨p.opener, depth, n :: p.inner⟩) es) :
    Fate build p above (n :: ns) stack := by
  cases h with
  | @closed inner rest closer hsplit hinner hrest hclosed =>
    have hnodes : n :: ns = n :: inner ++ closer :: rest := by rw [hsplit, List.cons_append]
    refine .closed hnodes (unclosedBy_cons.2 ⟨_, hnest, hinner⟩) hrest fun es => ?_
    rw [List.map_cons, List.cons_append, hgroup, hclosed]
    simp
  | left hstack hleft =>
    refine .left hstack fun eof heof => ?_
    rw [List.map_cons, List.cons_append, hgroup]
    exact hleft eof heof

/-- An open bracket that nothing crosses is closed just where it is taken off the stack. The induction goes along the
nodes; the brackets of its own sort on the stack are as many as are counted. -/
theorem fate_of_nest (p : Pending) (hp : p.opener.kind.closer? = some c) (hend : ∀ n ∈ ns, n.kind ≠ .eof)
    (hdepth : p.depth = above.count p.opener.kind + 1)
    (hrun : unclosedBy (above ++ [p.opener.kind]) ns = some stack) : Fate build p above ns stack := by
  induction ns generalizing p above with
  | nil =>
    refine .left (by cases hrun; simp) fun eof heof => ?_
    have hopener : eof.kind ≠ p.opener.kind := by
      intro hk
      rw [← hk, heof] at hp
      cases hp
    have hcloser : some eof.kind ≠ p.opener.kind.closer? := by
      rw [hp, heof]
      rcases closer?_eq_some hp with ⟨-, rfl⟩ | ⟨-, rfl⟩ <;> decide
    rw [List.map_nil, List.nil_append, group, if_neg hopener, if_neg hcloser, if_pos heof]
    exact ⟨_, rfl⟩
  | cons n ns ih =>
    have heof := hend n (by simp)
    have hclosers : ∀ {o : Kind}, o.closer? = some n.kind → n.kind ≠ p.opener.kind :=
      fun ho => closer?_ne ho (by simp [hp])
    obtain ⟨next, hnext, hrest⟩ := unclosedBy_cons.1 hrun
    -- wherever the bracket stays open, the rest is told by the induction
    have hset : ∀ (depth : Nat) {above' : List Kind}, nest above n.kind = some above' →
        next = above' ++ [p.opener.kind] → depth = above'.count p.opener.kind + 1 →
        (∀ es, group build (some p) (.item n :: es) = group build (some ⟨p.opener, depth, n :: p.inner⟩) es) →
        Fate build p above (n :: ns) stack := by
      rintro depth above' hnest rfl hdepth' hgroup
      exact (ih ⟨p.opener, depth, n :: p.inner⟩ hp (fun m hm => hend m (by simp [hm])) hdepth' hrest).aside hnest hgroup
    rcases nest_cases hnext with ⟨hopen, rfl⟩ | ⟨-, hnil, -⟩ | ⟨opener, hc, hstack⟩ | ⟨hother, rfl⟩
    · by_cases hsame : n.kind = p.opener.kind
      · refine hset (p.depth + 1) (nest_open hopen above) rfl ?_ fun es => by rw [group, if_pos hsame]
        rw [hsame, List.count_cons_self, hdepth]
      · have hcloser : p.opener.kind.closer? ≠ some n.kind := fun heq => closer?_ne heq hopen rfl
        refine hset p.depth (nest_open hopen above) rfl ?_ (group_aside hsame hcloser heof)
        rw [List.count_cons_of_ne hsame, hdepth]
    · simp at hnil
    · cases above with
      | nil =>
        -- nothing is left above the bracket, and so it is the one that is closed
        obtain ⟨rfl, rfl⟩ := List.cons.inj hstack
        have hone : p.depth = 1 := hdepth
        have hnodes : n :: ns = [] ++ n :: ns := rfl
        refine .closed hnodes rfl hrest fun es => ?_
        rw [List.map_cons, List.cons_append, group, if_neg (hclosers hc), if_pos hc.symm, if_pos hone, List.append_nil]
      | cons o above =>
        obtain ⟨rfl, rfl⟩ := List.cons.inj hstack
        by_cases hsame : o = p.opener.kind
        · subst hsame
          rw [List.count_cons_self] at hdepth
          refine hset (p.depth - 1) (nest_close hc above) rfl (by omega) fun es => ?_
          rw [group, if_neg (hclosers hc), if_pos hc.symm, if_neg (by omega)]
        · have hcloser : p.opener.kind.closer? ≠ some n.kind := fun heq => hsame (closer?_inj hc heq)
          rw [List.count_cons_of_ne hsame] at hdepth
          exact hset p.depth (nest_close hc above) rfl hdepth (group_aside (hclosers hc) hcloser heof)
    · have hopener : n.kind ≠ p.opener.kind := fun heq => hother (heq ▸ (closer?_brackets hp).1)
      have hcloser : p.opener.kind.closer? ≠ some n.kind := fun heq => hother (closer?_brackets heq).2
      exact hset p.depth (nest_other hother above) rfl hdepth (group_aside hopener hcloser heof)

/-- Grouping nodes whose brackets do not cross: a node that opens nothing is passed on, and an opening bracket meets its
fate. -/
theorem group_nest {n : Node} (ht : IsToken n) (hend : ∀ m ∈ n :: ns, m.kind ≠ .eof)
    (hrun : unclosedBy [] (n :: ns) = some stack) :
    ((∀ es, group build none (.item n :: es) = .item n :: group build none es) ∧ unclosedBy [] ns = some stack) ∨
    ((∀ es, group build none (.item n :: es) = group build (some (.start n)) es) ∧
      Fate build (.start n) [] ns stack) := by
  obtain ⟨next, hnext, hrest⟩ := unclosedBy_cons.1 hrun
  cases hn : n.kind.closer? with
  | none =>
    refine .inl ⟨fun es => by rw [group, hn, if_neg (by simp)], ?_⟩
    rcases nest_cases hnext with ⟨hopen, -⟩ | ⟨-, -, rfl⟩ | ⟨opener, -, hnil⟩ | ⟨-, rfl⟩
    · simp [hn] at hopen
    · exact hrest
    · cases hnil
    · exact hrest
  | some c =>
    have hopener : (n.kind.closer?.isSome && !n.resolved) = true := by simp [hn, ht.loose (closer?_brackets hn).1]
    refine .inr ⟨fun es => by rw [group, if_pos hopener], ?_⟩
    rw [nest_open (by simp [hn])] at hnext
    cases hnext
    exact fate_of_nest (.start n) hn (fun m hm => hend m (by simp [hm])) rfl hrest

/-- Nodes of tokens before the end of a source. -/
def Inside (ns : List Node) : Prop := ∀ n ∈ ns, IsToken n ∧ n.kind ≠ .eof

/-- Where brackets do not cross and all are closed, grouping complains about no open bracket, if building the inside of
brackets does not either. -/
theorem group_closed (hb : ∀ o inner, Inside inner → unclosedBy [] inner = some [] →
      ∀ c, Event.report c ∈ build o inner → c.isUnclosed = false) :
    ∀ (ns : List Node), Inside ns → unclosedBy [] ns = some [] → ∀ (es : Events Node) (c : Complaint),
      Event.report c ∈ group build none (ns.map .item ++ es) →
      c.isUnclosed = false ∨ Event.report c ∈ group build none es
  | [], _, _, es, c, hc => .inr hc
  | n :: ns, hns, hrun, es, c, hc => by
    have htail : Inside ns := fun m hm => hns m (by simp [hm])
    rw [List.map_cons, List.cons_append] at hc
    rcases group_nest (hns n (by simp)).1 (fun m hm => (hns m hm).2) hrun with ⟨hgroup, hrest⟩ | ⟨hgroup, hfate⟩
    · rw [hgroup] at hc
      exact group_closed hb ns htail hrest es c (by simpa using hc)
    · rw [hgroup] at hc
      cases hfate with
      | @closed inner rest closer hsplit hinner hrest hclosed =>
        subst hsplit
        rw [hclosed] at hc
        rcases Event.mem_chain hc with hc | hc
        · exact .inl (hb _ _ (fun m hm => htail m (by simpa using .inl hm)) hinner c hc)
        · exact group_closed hb rest (fun m hm => htail m (by simp [hm])) hrest es c hc
      | left hstack => exact absurd rfl hstack
termination_by ns => ns.length

/-- Where brackets do not cross and one is left open, grouping complains about it. -/
theorem group_unclosed {eof : Node} (heof : eof.kind = .eof) : ∀ (ns : List Node), Inside ns →
    unclosedBy [] ns = some stack → stack ≠ [] → halt? (group build none (ns.map .item ++ [.item eof])) = none →
    ∃ c, c.isUnclosed = true ∧ Event.report c ∈ group build none (ns.map .item ++ [.item eof])
  | [], _, hrun, hstack, _ => by
    cases hrun
    exact absurd rfl hstack
  | n :: ns, hns, hrun, hstack, hhalt => by
    have htail : Inside ns := fun m hm => hns m (by simp [hm])
    rw [List.map_cons, List.cons_append] at hhalt ⊢
    rcases group_nest (hns n (by simp)).1 (fun m hm => (hns m hm).2) hrun with ⟨hgroup, hrest⟩ | ⟨hgroup, hfate⟩
    · rw [hgroup] at hhalt ⊢
      obtain ⟨c, hc, hmem⟩ := group_unclosed heof ns htail hrest hstack hhalt
      exact ⟨c, hc, List.mem_cons_of_mem _ hmem⟩
    · rw [hgroup] at hhalt ⊢
      cases hfate with
      | @closed inner rest closer hsplit hinner hrest hclosed =>
        subst hsplit
        rw [hclosed, Event.halt?_chain, Option.or_eq_none_iff] at hhalt
        obtain ⟨c, hc, hmem⟩ := group_unclosed heof rest (fun m hm => htail m (by simp [hm])) hrest hstack hhalt.2
        rw [hclosed, Event.chain_eq_append hhalt.1]
        exact ⟨c, hc, List.mem_append_right _ hmem⟩
      | left _ hleft =>
        obtain ⟨es, hes⟩ := hleft eof heof
        rw [hes]
        exact ⟨_, rfl, List.mem_cons_self ..⟩
termination_by ns => ns.length

/-! ## Complaints of a source -/

/-- No statement is complained about for an open bracket. -/
theorem settle_closed {limits : Limits} {source : Text} {s : Statement} {c : Complaint}
    (h : Event.report c ∈ settle limits source s) : c.isUnclosed = false := by
  have hcheck := check_of_report h
  unfold Statement.check at hcheck
  split at hcheck
  · cases hcheck; rfl
  · split at hcheck
    · cases hcheck; rfl
    · split at hcheck
      · cases hcheck; rfl
      · cases hcheck
    · cases hcheck; rfl

theorem statements_closed {limits : Limits} {source : Text} {es : Events Node} {c : Complaint}
    (h : Event.report c ∈ statements limits source es) : c.isUnclosed = false ∨ Event.report c ∈ es := by
  rcases Event.mem_each h with ⟨s, -, hc⟩ | ⟨c', hc', hc⟩ | ⟨e, he⟩
  · exact .inl (settle_closed hc)
  · cases hc
    exact .inr (split_report [] es hc')
  · cases he

theorem Built.report_mem_events {b : Built} {c : Complaint} (h : Event.report c ∈ b.events) : c ∈ b.complaints := by
  rcases List.mem_append.1 h with h | h
  · simpa using h
  · rw [List.mem_singleton] at h
    split at h <;> cases h

/-- At every level of brackets that do not cross and are all closed, there is no complaint about an open bracket. -/
theorem build_closed {limits : Limits} : ∀ (depth : Nat) (opener : Node) (inner : List Node), Inside inner →
    unclosedBy [] inner = some [] → ∀ c ∈ (Tree.build limits depth opener inner).complaints, c.isUnclosed = false
  | 0, _, _, _, _, c, hc => by cases hc
  | depth + 1, opener, inner, hinner, hrun, c, hc => by
    rcases statements_closed (Event.mem_reports.1 hc) with hclosed | hc
    · exact hclosed
    · rw [← List.append_nil (inner.map _)] at hc
      refine (group_closed (fun o ns hns hrun c hc => ?_) inner hinner hrun [] c hc).resolve_right (by simp [group])
      exact build_closed depth o ns hns hrun c (Built.report_mem_events hc)

variable {limits : Limits} {source text : Text} {pos : Position}

theorem inside_tokenNodes (source text : Text) : Inside (tokenNodes (scan source text).tokens) := by
  intro n hn
  refine ⟨?_, tokenNodes_ne_eof source text n hn⟩
  obtain ⟨t, -, rfl⟩ := List.mem_map.1 hn
  exact ⟨t, rfl⟩

/-- A source whose brackets do not cross and are all closed is parsed without a complaint about an open bracket. -/
theorem parse_closed (h : (scan source text).ending = .finished pos)
    (hrun : unclosedBy [] (tokenNodes (scan source text).tokens) = some []) :
    ∀ c ∈ (parse limits source text).complaints, c.isUnclosed = false := by
  intro c hc
  rcases statements_closed (Event.mem_reports.1 hc) with hclosed | hc
  · exact hclosed
  · rw [groupAll, nodes_finished h] at hc
    have hbuild : ∀ o inner, Inside inner → unclosedBy [] inner = some [] →
        ∀ c, Event.report c ∈ (Tree.build limits limits.brackets o inner).events → c.isUnclosed = false :=
      fun o inner hinner hrun c hc => build_closed _ o inner hinner hrun c (Built.report_mem_events hc)
    refine (group_closed hbuild _ (inside_tokenNodes source text) hrun _ c hc).resolve_right ?_
    rw [group, if_neg (by simp [Node.ofToken, Node.kindOf, Kind.closer?])]
    simp [group]

/-- A source whose brackets do not cross, and that is parsed to its end without a complaint about an open bracket, leaves
none open. -/
theorem unclosedBy_of_parse {stack : List Kind} {root : Node} (h : (scan source text).ending = .finished pos)
    (hrun : unclosedBy [] (tokenNodes (scan source text).tokens) = some stack)
    (hroot : (parse limits source text).result = .ok root)
    (hclosed : ∀ c ∈ (parse limits source text).complaints, c.isUnclosed = false) : stack = [] := by
  by_contra hstack
  have hparsed := halt?_sourceEvents hroot
  have hunclosed : ∃ c, c.isUnclosed = true ∧ Event.report c ∈ groupAll limits (nodes (scan source text)) := by
    have hhalt := (halt?_statements_eq_none.1 hparsed).1
    rw [groupAll, nodes_finished h] at hhalt ⊢
    exact group_unclosed rfl _ (inside_tokenNodes source text) hrun hstack hhalt
  obtain ⟨c, hc, hmem⟩ := hunclosed
  cases hc.symm.trans (hclosed c (Event.mem_reports.2 (report_mem_statements hparsed hmem)))

end Tree

/-! ## Complete entries -/

namespace Entry

variable {text : Text} {pos : Position}

/-- The line break behind an entry adds a separator at most. -/
theorem scanned_finished (h : (scan sourceName text).ending = .finished pos) : ∃ seps pos',
    scanned text = ⟨(scan sourceName text).tokens ++ seps, .finished pos'⟩ ∧ ∀ t ∈ seps, t.kind = .separator := by
  have hfeed : Lexeme.isSpace '\n' = true := by decide
  have happend : scanned text = (Scan.scanFrom sourceName (Cursor.start.advance text)
      (Scan.lastKind none (scan sourceName text).tokens) ['\n']).prepend (scan sourceName text).tokens :=
    Scan.scanFrom_append h []
  rw [happend, Scan.scanFrom_space hfeed]
  split
  · rw [Scan.scanFrom_nil]
    exact ⟨[⟨.separator, ['\n'], _⟩], _, rfl, by simp⟩
  · rw [Scan.scanFrom_nil]
    exact ⟨[], _, rfl, by simp⟩

/-- The kind of the last token of an entry, with the line break behind it and comments apart. -/
def lastSignificant (text : Text) : Option Kind := ((Token.significant (scanned text).tokens).map Token.kind).getLast?

theorem foldl_openAfter_comments (depth : Nat) (kinds : List Kind) :
    (kinds.filter fun k => !k.isComment).foldl openAfter depth = kinds.foldl openAfter depth := by
  have hcomment : (fun depth k => if (!k.isComment) = true then openAfter depth k else depth) = openAfter := by
    funext depth k
    cases k <;> rfl
  rw [List.foldl_filter, hcomment]

theorem foldl_openAfter_separators {ts : List Token} (h : ∀ t ∈ ts, t.kind = .separator) (depth : Nat) :
    (ts.map Token.kind).foldl openAfter depth = depth := by
  induction ts with
  | nil => rfl
  | cons t ts ih =>
    rw [List.map_cons, List.foldl_cons, h t (by simp)]
    exact ih fun t' ht' => h t' (by simp [ht'])

/-- An entry that is scanned to its end is complete if no bracket is counted as open and a statement ends with it. -/
theorem isRunnable_iff (h : (scan sourceName text).ending = .finished pos) : isRunnable text = true ↔
    ((scan sourceName text).tokens.map Token.kind).foldl openAfter 0 = 0 ∧ lastSignificant text = some .separator := by
  obtain ⟨seps, pos', hscanned, hseps⟩ := scanned_finished h
  have hkinds : ((scanned text).tokens.map Token.kind).filter (fun k => !k.isComment) =
      (Token.significant (scanned text).tokens).map Token.kind := List.filter_map
  have hcount : (((scanned text).tokens.map Token.kind).filter fun k => !k.isComment).foldl openAfter 0 =
      ((scan sourceName text).tokens.map Token.kind).foldl openAfter 0 := by
    rw [foldl_openAfter_comments, hscanned, List.map_append, List.foldl_append, foldl_openAfter_separators hseps]
  have hending : (scanned text).ending = .finished pos' := by rw [hscanned]
  unfold isRunnable lastSignificant
  simp only [hending, Bool.and_eq_true, decide_eq_true_eq, hcount]
  rw [hkinds]

end Entry

/-- Completeness agrees with the tree on brackets, if no closing bracket meets an open one of the other sort: a complete
entry is parsed without a complaint about an open bracket, at any level; and an entry whose brackets do not go too deep is
complete exactly if there is no such complaint and a statement ends with it. -/
theorem completeness_agrees_on_brackets {limits : Limits} {text : Text} {pos : Position}
    (h : (scan Entry.sourceName text).ending = .finished pos)
    (huncrossed : Entry.Uncrossed (scan Entry.sourceName text).tokens) :
    (Entry.isRunnable text = true →
      ∀ c ∈ (parse limits Entry.sourceName text).complaints, c.isUnclosed = false) ∧
    ∀ root, (parse limits Entry.sourceName text).result = .ok root →
      (Entry.isRunnable text = true ↔
        (∀ c ∈ (parse limits Entry.sourceName text).complaints, c.isUnclosed = false) ∧
          Entry.lastSignificant text = some .separator) := by
  obtain ⟨stack, hstack⟩ := Option.isSome_iff_exists.1 huncrossed
  have hcount := Entry.foldl_openAfter hstack
  have hrun : Entry.unclosedBy [] (tokenNodes (scan Entry.sourceName text).tokens) = some stack := by
    rw [Entry.unclosedBy_tokenNodes, hstack]
  have hclosed : Entry.isRunnable text = true →
      ∀ c ∈ (parse limits Entry.sourceName text).complaints, c.isUnclosed = false := by
    intro hrunnable
    have hempty := ((Entry.isRunnable_iff h).1 hrunnable).1
    rw [← List.length_nil (α := Kind), hcount, List.length_nil, List.length_eq_zero_iff] at hempty
    subst hempty
    exact Tree.parse_closed h hrun
  refine ⟨hclosed, fun root hroot => ⟨fun hrunnable => ?_, fun ⟨hall, hlast⟩ => ?_⟩⟩
  · exact ⟨hclosed hrunnable, ((Entry.isRunnable_iff h).1 hrunnable).2⟩
  · obtain rfl := Tree.unclosedBy_of_parse h hrun hroot hall
    exact (Entry.isRunnable_iff h).2 ⟨hcount, hlast⟩

/-- A function of two lines, and a closing bracket too many behind it. -/
theorem completeness_agrees_on_brackets_stray :
    let text : Text := "f = fn(a) \x7b (a)\n\x7d)"
    (scan Entry.sourceName text).ending = .finished ⟨2, 3, Entry.sourceName⟩ ∧
      Entry.Uncrossed (scan Entry.sourceName text).tokens ∧ Entry.isRunnable text = true ∧
      ∀ c ∈ (parse .standard Entry.sourceName text).complaints, c.isUnclosed = false := by
  intro text
  have hscan : (scan Entry.sourceName text).ending = .finished ⟨2, 3, Entry.sourceName⟩ := by decide +kernel
  have huncrossed : Entry.Uncrossed (scan Entry.sourceName text).tokens := by
    unfold Entry.Uncrossed
    decide +kernel
  have hrunnable : Entry.isRunnable text = true := by decide +kernel
  exact ⟨hscan, huncrossed, hrunnable, (completeness_agrees_on_brackets hscan huncrossed).1 hrunnable⟩

/-- A closing bracket of the other sort makes an entry complete, and leaves a bracket open. -/
theorem crossed_bracket_left_open :
    let text : Text := "(\x7d"
    (scan Entry.sourceName text).ending = .finished ⟨1, 3, Entry.sourceName⟩ ∧ Entry.isRunnable text = true ∧
      ∃ c ∈ (parse .standard Entry.sourceName text).complaints, c.isUnclosed = true := by
  decide +kernel

end Kettle
