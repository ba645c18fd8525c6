/-
What building makes of events one after the other. Where no bracket is left open, what comes behind a
separator is grouped and split as if it stood alone, unless a halt comes before it.
-/
import Kettle.Proofs.Tree.Relocate

namespace Kettle

/-! ## Events one after the other -/

namespace Event

variable {ρ ε α β : Type} {es more : List (Event ρ ε α)} {f : α → List (Event ρ ε β)}

theorem halt?_chain : halt? (chain es more) = (halt? es).or (halt? more) := by
  induction es, more using chain_induct with
  | nil => rfl
  | halt => rfl
  | report r rest more ih => exact ih
  | item a rest more ih => exact ih

theorem chain_eq_append (h : halt? es = none) : chain es more = es ++ more := by
  induction es, more using chain_induct with
  | nil => rfl
  | halt => cases h
  | report r rest more ih => rw [ih h]; rfl
  | item a rest more ih => rw [ih h]; rfl

/-- What comes after a halt is lost, whatever it is. -/
theorem chain_of_halt {e : ε} (h : halt? es = some e) (more' : List (Event ρ ε α)) :
    chain es more = chain es more' := by
  induction es, more using chain_induct with
  | nil => cases h
  | halt => rfl
  | report r rest more ih => exact congrArg _ (ih h)
  | item a rest more ih => exact congrArg _ (ih h)

theorem chain_map_report (rs : List ρ) (es more : List (Event ρ ε α)) :
    chain (rs.map report ++ es) more = rs.map report ++ chain es more := by
  induction rs with
  | nil => rfl
  | cons r rs ih => exact congrArg _ ih

theorem chain_assoc (es more rest : List (Event ρ ε α)) : chain (chain es more) rest = chain es (chain more rest) := by
  induction es, more using chain_induct with
  | nil => rfl
  | halt => rfl
  | report r es more ih => exact congrArg _ ih
  | item a es more ih => exact congrArg _ ih

theorem halt?_append : halt? (es ++ more) = (halt? es).or (halt? more) := by
  induction es with
  | nil => rfl
  | cons e es ih => cases e <;> first | rfl | exact ih

theorem items_append : items (es ++ more) = items es ++ items more := by
  induction es with
  | nil => rfl
  | cons e es ih => cases e <;> simp [items, ih]

theorem reports_append : reports (es ++ more) = reports es ++ reports more := by
  induction es with
  | nil => rfl
  | cons e es ih => cases e <;> simp [reports, ih]

theorem items_map_report (rs : List ρ) : items (rs.map report : List (Event ρ ε α)) = [] := by
  induction rs with
  | nil => rfl
  | cons r rs ih => exact ih

theorem reports_map_report (rs : List ρ) : reports (rs.map report : List (Event ρ ε α)) = rs := by
  induction rs with
  | nil => rfl
  | cons r rs ih => exact congrArg _ ih

theorem halt?_map_report (rs : List ρ) : halt? (rs.map report : List (Event ρ ε α)) = none := by
  induction rs with
  | nil => rfl
  | cons r rs ih => exact ih

theorem items_map_item (as : List α) : items (as.map item : List (Event ρ ε α)) = as := by
  induction as with
  | nil => rfl
  | cons a as ih => exact congrArg _ ih

theorem reports_map_item (as : List α) : reports (as.map item : List (Event ρ ε α)) = [] := by
  induction as with
  | nil => rfl
  | cons a as ih => exact ih

theorem halt?_map_item (as : List α) : halt? (as.map item : List (Event ρ ε α)) = none := by
  induction as with
  | nil => rfl
  | cons a as ih => exact ih

theorem mem_reports {r : ρ} : r ∈ reports es ↔ Event.report r ∈ es := by
  induction es with
  | nil => simp [reports]
  | cons e es ih => cases e <;> simp [reports, ih]

theorem outcome_eq_ok_iff {as : List α} : outcome es = .ok as ↔ halt? es = none ∧ items es = as := by
  unfold outcome
  cases halt? es <;> simp

/-- A stage that works on one item at a time halts on an item, or where the stage before it does. -/
theorem halt?_each_cases {e : ε} (h : halt? (each f es) = some e) :
    (∃ a, Event.item a ∈ es ∧ halt? (f a) = some e) ∨ halt? es = some e := by
  induction es with
  | nil => cases h
  | cons event es ih =>
    have hlater : (∃ a, Event.item a ∈ es ∧ halt? (f a) = some e) →
        ∃ a, Event.item a ∈ event :: es ∧ halt? (f a) = some e :=
      Exists.imp fun a => And.imp_left (List.mem_cons_of_mem event)
    cases event with
    | item a =>
      rw [each, halt?_chain, Option.or_eq_some_iff] at h
      rcases h with ha | ⟨-, hes⟩
      · exact .inl ⟨a, List.mem_cons_self, ha⟩
      · exact (ih hes).imp_left hlater
    | report r => exact (ih h).imp_left hlater
    | halt e' => exact .inr h

/-- A stage that does not halt halts on no item, and the stage before it does not halt. -/
theorem halt?_each_eq_none :
    halt? (each f es) = none ↔ halt? es = none ∧ ∀ a, Event.item a ∈ es → halt? (f a) = none := by
  induction es with
  | nil => simp [each, halt?]
  | cons event es ih =>
    cases event with
    | item a =>
      rw [each, halt?_chain, Option.or_eq_none_iff, ih]
      simp only [halt?, List.mem_cons, item.injEq, forall_eq_or_imp]
      tauto
    | report r => simpa [each, halt?] using ih
    | halt e => simp [each, halt?]

theorem each_chain (es more : List (Event ρ ε α)) : each f (chain es more) = chain (each f es) (each f more) := by
  induction es, more using chain_induct with
  | nil => rfl
  | halt => rfl
  | report r es more ih => exact congrArg _ ih
  | item a es more ih => rw [each, each, ih, chain_assoc]

/-- A stage that works on one item at a time hands on nothing after a halt. -/
theorem each_chain_nil (es : List (Event ρ ε α)) : chain (each f es) [] = each f es := by
  induction es with
  | nil => rfl
  | cons e es ih =>
    cases e with
    | item a => rw [each, chain_assoc, ih]
    | report r => exact congrArg _ ih
    | halt e => rfl

/-- A stage that does not halt hands on every report. -/
theorem report_mem_each {r : ρ} (h : halt? (each f es) = none) (hr : Event.report r ∈ es) :
    Event.report r ∈ each f es := by
  induction es with
  | nil => cases hr
  | cons event es ih =>
    cases event with
    | item a =>
      rw [each, halt?_chain, Option.or_eq_none_iff] at h
      rw [each, chain_eq_append h.1]
      exact List.mem_append_right _ (ih h.2 (by simpa using hr))
    | report r' =>
      rcases List.mem_cons.1 hr with hr | hr
      · cases hr; simp [each]
      · exact List.mem_cons_of_mem _ (ih h hr)
    | halt e => cases h

end Event

/-- Whether a complaint is about a bracket that is never closed. -/
def Complaint.isUnclosed (c : Complaint) : Bool :=
  match c.cause with
  | .unclosed .. => true
  | _ => false

namespace Tree

variable {build : Node → List Node → Events Node} {es rest : Events Node} {n : Node} {limits : Limits} {source : Text}

/-! ## Splitting -/

theorem halt?_flush (ns : List Node) : Event.halt? (flush ns) = none := by
  unfold flush
  split <;> rfl

theorem halt?_settle {s : Statement} {e : Fault} (h : Event.halt? (settle limits source s) = some e) :
    s.exhausts limits.nodes = true ∧ e = tooDeep source := by
  unfold settle at h
  split at h
  · rename_i hdeep
    exact ⟨hdeep, (Option.some.inj h).symm⟩
  · split at h <;> cases h

theorem halt?_settle_eq_none {s : Statement} :
    Event.halt? (settle limits source s) = none ↔ s.exhausts limits.nodes = false := by
  unfold settle
  split
  · rename_i hdeep
    simp [Event.halt?, hdeep]
  · rename_i hshallow
    split <;> simp [Event.halt?, hshallow]

theorem halt?_split (current : List Node) (es : Events Node) : Event.halt? (split current es) = Event.halt? es := by
  induction current, es using split_induct with
  | nil current => exact halt?_flush current
  | halt => rfl
  | report current r rest ih => exact ih
  | separator current n rest _ ih => rw [Event.halt?_append, halt?_flush, ih]; rfl
  | node current n rest _ ih => exact ih

/-- Statements are not halted if nothing halts before they are settled, and none of them is too deep. -/
theorem halt?_statements_eq_none : Event.halt? (statements limits source es) = none ↔
    Event.halt? es = none ∧ ∀ s, Event.item s ∈ split [] es → Statement.exhausts limits.nodes s = false := by
  simp only [statements, Event.halt?_each_eq_none, halt?_split, halt?_settle_eq_none]

/-- Statements of which none is too deep are halted where what they are made of is. -/
theorem halt?_statements_of_shallow
    (h : ∀ s, Event.item s ∈ split [] es → Statement.exhausts limits.nodes s = false) :
    Event.halt? (statements limits source es) = Event.halt? es := by
  rw [← halt?_split [] es]
  cases hall : Event.halt? (statements limits source es) with
  | none => exact (Event.halt?_each_eq_none.1 hall).1.symm
  | some e =>
    rcases Event.halt?_each_cases hall with ⟨s, hs, hhalt⟩ | hes
    · rw [halt?_settle_eq_none.2 (h s hs)] at hhalt
      cases hhalt
    · exact hes.symm

/-- Statements are halted by what halts before they are settled, or by one that is too deep. -/
theorem halt?_statements {e : Fault} (h : Event.halt? (statements limits source es) = some e) :
    e = tooDeep source ∨ Event.halt? es = some e := by
  rcases Event.halt?_each_cases h with ⟨s, -, hs⟩ | hes
  · exact .inl (halt?_settle hs).2
  · exact .inr (by rwa [halt?_split] at hes)

theorem report_mem_split {c : Complaint} (current : List Node) (h : Event.halt? es = none) (hc : Event.report c ∈ es) :
    Event.report c ∈ split current es := by
  induction current, es using split_induct with
  | nil => cases hc
  | halt => cases h
  | report current r rest ih =>
    rcases List.mem_cons.1 hc with hc | hc
    · cases hc; simp
    · exact List.mem_cons_of_mem _ (ih h hc)
  | separator current n rest _ ih => exact List.mem_append_right _ (ih h (by simpa using hc))
  | node current n rest _ ih => exact ih h (by simpa using hc)

/-- Statements that are not halted hand on every complaint. -/
theorem report_mem_statements {c : Complaint} (h : Event.halt? (statements limits source es) = none)
    (hc : Event.report c ∈ es) : Event.report c ∈ statements limits source es :=
  Event.report_mem_each h (report_mem_split [] (halt?_statements_eq_none.1 h).1 hc)

/-- Nodes that are no separators go on with the statement. -/
theorem split_others {ns : List Node} (h : ∀ n ∈ ns, isSeparator n = false) (current : List Node) (es : Events Node) :
    split current (ns.map .item ++ es) = split (ns.reverse ++ current) es := by
  induction ns generalizing current with
  | nil => rfl
  | cons n ns ih =>
    rw [List.map_cons, List.cons_append, split, if_neg (by simp [h n (by simp)]), ih fun m hm => h m (by simp [hm])]
    simp

/-- A separator ends a statement whatever comes after it. -/
theorem split_chain (hn : isSeparator n = true) (current : List Node) (es rest : Events Node) :
    split current (Event.chain es (.item n :: rest)) = Event.chain (split current es) (split [] rest) := by
  induction current, es using split_induct with
  | nil current => simp [Event.chain, split, hn, Event.chain_eq_append (halt?_flush current)]
  | halt => rfl
  | report current r es ih => exact congrArg (List.cons _) ih
  | separator current m es hm ih =>
    simp only [Event.chain, split, hm, if_true]
    rw [ih, ← Event.chain_eq_append (halt?_flush current), ← Event.chain_eq_append (halt?_flush current),
      Event.chain_assoc]
  | node current m es hm ih =>
    simp only [Event.chain, split, hm]
    exact ih

/-- Statements on both sides of a separator are settled each by itself. -/
theorem statements_chain (hn : isSeparator n = true) (es rest : Events Node) : statements limits source
    (Event.chain es (.item n :: rest)) = Event.chain (statements limits source es) (statements limits source rest) := by
  rw [statements, split_chain hn, Event.each_chain]
  rfl

theorem statements_append (hn : isSeparator n = true) (h : Event.halt? (statements limits source es) = none) :
    statements limits source (es ++ .item n :: rest) = statements limits source es ++ statements limits source rest := by
  rw [← Event.chain_eq_append (halt?_statements_eq_none.1 h).1, statements_chain hn, Event.chain_eq_append h]

theorem statements_separators {seps : List Node} (hs : ∀ m ∈ seps, isSeparator m = true) (rest : Events Node) :
    statements limits source (seps.map .item ++ rest) = statements limits source rest := by
  induction seps with
  | nil => rfl
  | cons m seps ih => exact (statements_chain (hs m (by simp)) [] _).trans (ih fun m' hm' => hs m' (by simp [hm']))

/-- Splitting nodes that are not halted, and then others: the statements that end among the first do not hang on the
others. -/
theorem split_append (current : List Node) (h : Event.halt? es = none) : ∃ (ended : Events (List Node)) (last : List Node),
    Event.halt? ended = none ∧ ∀ more, split current (es ++ more) = ended ++ split last more := by
  induction current, es using split_induct with
  | nil current => exact ⟨[], current, rfl, fun _ => rfl⟩
  | halt => cases h
  | report current r rest ih =>
    obtain ⟨ended, last, hhalt, hsplit⟩ := ih h
    exact ⟨.report r :: ended, last, hhalt, fun more => congrArg (List.cons _) (hsplit more)⟩
  | separator current n rest hn ih =>
    obtain ⟨ended, last, hhalt, hsplit⟩ := ih h
    refine ⟨flush current ++ ended, last, by rw [Event.halt?_append, halt?_flush, hhalt]; rfl, fun more => ?_⟩
    rw [List.cons_append, split, if_pos hn, hsplit, List.append_assoc]
  | node current n rest hn ih =>
    obtain ⟨ended, last, hhalt, hsplit⟩ := ih h
    refine ⟨ended, last, hhalt, fun more => ?_⟩
    rw [List.cons_append, split, if_neg hn, hsplit]

/-- A complaint that is not handed on stands behind a halt, so that it does not matter what else stands there. -/
theorem statements_lost {c : Complaint} {more : Events Node}
    (h : Event.report c ∉ statements limits source (Event.chain es (.report c :: more))) (more' : Events Node) :
    statements limits source (Event.chain es more') = statements limits source (Event.chain es (.report c :: more)) := by
  cases hes : Event.halt? es with
  | some e => rw [Event.chain_of_halt hes]
  | none =>
    obtain ⟨ended, last, hended, hsplit⟩ := split_append [] hes
    rw [Event.chain_eq_append hes, statements, hsplit, ← Event.chain_eq_append hended, Event.each_chain] at h
    rw [Event.chain_eq_append hes, Event.chain_eq_append hes, statements, statements, hsplit, hsplit,
      ← Event.chain_eq_append hended, ← Event.chain_eq_append hended, Event.each_chain, Event.each_chain]
    cases hfirst : Event.halt? (Event.each (settle limits source) ended) with
    | some e => exact Event.chain_of_halt hfirst _
    | none =>
      rw [Event.chain_eq_append hfirst] at h
      exact absurd (List.mem_append_right _ (List.mem_cons_self ..)) h

/-! ## Grouping -/

/-- The end of a source closes the bracket that is open, with a complaint. -/
theorem group_end {p : Pending} (hopener : p.opener.kind.closer?.isSome) (hn : n.kind = .eof) (rest : Events Node) :
    group build (some p) (.item n :: rest) =
      .report p.unclosed :: Event.chain (build p.opener p.inner.reverse) (group build none rest) := by
  have hkind : ¬ n.kind = p.opener.kind := by
    intro he; rw [← he, hn] at hopener; cases hopener
  have hclose : ¬ some n.kind = p.opener.kind.closer? := by
    intro he
    revert he hopener
    cases p.opener.kind <;> simp [Kind.closer?, hn]
  rw [group, if_neg hkind, if_neg hclose, if_pos hn]
  rfl

/-- Where a source ends, and nothing is open, what comes instead of the end is grouped as if it stood alone. A
bracket that is open is complained about, and what comes before that complaint does not hang on the end. -/
theorem group_append (build : Node → List Node → Events Node) (eof : Node) (heof : eof.kind = .eof) :
    ∀ (pending : Option Pending) (es : Events Node), (∀ p ∈ pending, p.opener.kind.closer?.isSome) →
      ∃ done,
        (group build pending (es ++ [.item eof]) = Event.chain done [.item eof] ∧
          ∀ rest, group build pending (es ++ rest) = Event.chain done (group build none rest)) ∨
        ((∃ p more, group build pending (es ++ [.item eof]) = Event.chain done (.report (Pending.unclosed p) :: more)) ∧
          ∀ rest, ∃ more, group build pending (es ++ rest) = Event.chain done more) := by
  intro pending es
  induction es generalizing pending with
  | nil =>
    intro hp
    cases pending with
    | none => exact ⟨[], .inl ⟨by simp [group, heof, Kind.closer?, Event.chain], fun _ => rfl⟩⟩
    | some p => exact ⟨[], .inr ⟨⟨p, _, group_end (hp p rfl) heof []⟩, fun rest => ⟨_, rfl⟩⟩⟩
  | cons e es ih =>
    intro hp
    cases e with
    | halt f => exact ⟨[.halt f], .inl ⟨by cases pending <;> rfl, fun _ => by cases pending <;> rfl⟩⟩
    | report r =>
      have hgroup : ∀ more, group build pending (.report r :: more) = .report r :: group build pending more := by
        intro more; cases pending <;> rfl
      obtain ⟨done, hdone⟩ := ih pending hp
      refine ⟨.report r :: done, ?_⟩
      simp only [List.cons_append, hgroup, Event.chain, List.cons.injEq, true_and]
      exact hdone
    | item n =>
      simp only [List.cons_append]
      cases pending with
      | none =>
        by_cases hn : (n.kind.closer?.isSome && !n.resolved) = true
        · simp only [group, if_pos hn]
          refine ih _ ?_
          rintro p ⟨⟩
          exact (Bool.and_eq_true_iff.1 hn).1
        · obtain ⟨done, hdone⟩ := ih none (by simp)
          refine ⟨.item n :: done, ?_⟩
          simp only [group, if_neg hn, Event.chain, List.cons.injEq, true_and]
          exact hdone
      | some p =>
        have hopener := hp p rfl
        by_cases hn : n.kind = p.opener.kind
        · simp only [group, if_pos hn]
          exact ih _ (by rintro q ⟨⟩; exact hopener)
        · by_cases hclose : some n.kind = p.opener.kind.closer?
          · by_cases hdepth : p.depth = 1
            · -- the group is built of the same nodes on both sides, and nothing is open behind it
              obtain ⟨done, hdone⟩ := ih none (by simp)
              refine ⟨Event.chain (build p.opener p.inner.reverse) done, ?_⟩
              simp only [group, if_neg hn, if_pos hclose, if_pos hdepth, Event.chain_assoc]
              rcases hdone with ⟨h, hrest⟩ | ⟨⟨q, more, h⟩, hrest⟩
              · exact .inl ⟨by rw [h], fun rest => by rw [hrest]⟩
              · refine .inr ⟨⟨q, more, by rw [h]⟩, fun rest => ?_⟩
                obtain ⟨more, hmore⟩ := hrest rest
                exact ⟨more, by rw [hmore]⟩
            · simp only [group, if_neg hn, if_pos hclose, if_neg hdepth]
              exact ih _ (by rintro q ⟨⟩; exact hopener)
          · by_cases hend : n.kind = .eof
            · -- an end before the end closes the bracket as well
              exact ⟨[], .inr ⟨⟨p, _, group_end hopener hend _⟩, fun rest => ⟨_, rfl⟩⟩⟩
            · simp only [group, if_neg hn, if_neg hclose, if_neg hend]
              exact ih _ (by rintro q ⟨⟩; exact hopener)

/-- Grouping hands on every halt. -/
theorem halt?_of_group (pending : Option Pending) (es : Events Node)
    (h : Event.halt? (group build pending es) = none) : Event.halt? es = none := by
  induction pending, es using group_induct build with
  | nil => rfl
  | unclosed => rfl
  | halt => cases h
  | report pending r rest ih => exact ih h
  | opening n rest _ ih => exact ih h
  | outside n rest _ ih => exact ih h
  | deeper p n rest _ ih => exact ih h
  | closing p n rest _ _ _ ih =>
    rw [Event.halt?_chain, Option.or_eq_none_iff] at h
    exact ih h.2
  | shallower p n rest _ _ _ ih => exact ih h
  | ending p n rest _ _ _ ih =>
    rw [Event.halt?_chain, Option.or_eq_none_iff] at h
    exact ih h.2
  | inside p n rest _ _ _ ih => exact ih h

theorem group_separators {seps : List Node} (hs : ∀ m ∈ seps, isSeparator m = true) (rest : Events Node) :
    group build none (seps.map .item ++ rest) = seps.map .item ++ group build none rest := by
  induction seps with
  | nil => rfl
  | cons m seps ih =>
    have hm : (m.kind.closer?.isSome && !m.resolved) = false := by
      have := hs m (by simp)
      simp only [isSeparator, Bool.or_eq_true, Node.isLoose_iff] at this
      rcases this with ⟨-, hk⟩ | ⟨-, hk⟩ <;> simp [hk, Kind.closer?]
    simp only [List.map_cons, List.cons_append, group, hm]
    exact congrArg (List.cons _) (ih fun m' hm' => hs m' (by simp [hm']))

/-! ## Nodes of joined scans -/

/-- The nodes of tokens, without comments. -/
def tokenNodes (ts : List Token) : List Node := (ts.filter fun t => !t.kind.isComment).map Node.ofToken

theorem tokenNodes_append (ts ts' : List Token) : tokenNodes (ts ++ ts') = tokenNodes ts ++ tokenNodes ts' := by
  simp [tokenNodes]

theorem nodes_finished {s : Scan} {pos : Position} (h : s.ending = .finished pos) :
    nodes s = (tokenNodes s.tokens).map .item ++ [.item (.ofToken ⟨.eof, [], pos⟩)] := by
  unfold nodes
  rw [h]
  simp [tokenNodes, Kind.isComment]

theorem nodes_prepend (ts : List Token) (s : Scan) :
    nodes (s.prepend ts) = (tokenNodes ts).map .item ++ nodes s := by
  unfold nodes Scan.prepend
  cases s.ending <;> simp [tokenNodes]

theorem nodes_relocate (φ : Position → Position) {s : Scan} {pos : Position} (h : s.ending = .finished pos) :
    nodes (s.relocate φ) = relocate φ (nodes s) := by
  have hnodes : tokenNodes (s.tokens.map (Token.relocate φ)) = (tokenNodes s.tokens).map (Node.relocate φ) := by
    simp [tokenNodes, List.filter_map, Function.comp_def, Token.relocate, Node.relocate_ofToken]
  have hending : (s.relocate φ).ending = .finished (φ pos) := by simp [Scan.relocate, h, Ending.relocate]
  rw [nodes_finished hending, nodes_finished h]
  simp [relocate, moved, Recast.events, Scan.relocate, hnodes, Event.map, Node.relocate_ofToken, Token.relocate,
    Function.comp_def]

theorem isSeparator_tokenNodes {ts : List Token} (h : ∀ t ∈ ts, t.kind = .separator) :
    ∀ m ∈ tokenNodes ts, isSeparator m = true := by
  intro m hm
  obtain ⟨t, ht, rfl⟩ := List.mem_map.1 hm
  have hk := h t (List.mem_filter.1 ht).1
  have hkind : Node.kindOf t = .separator := by simp [Node.kindOf, hk]
  simp [isSeparator, Node.isLoose, Node.ofToken, hkind, Node.isOperand, Kind.isString]

/-! ## The events of a source -/

variable {s : Text}

/-- The events behind the tree of a source. -/
def sourceEvents (limits : Limits) (source text : Text) : Events Node :=
  statements limits source (groupAll limits (nodes (scan source text)))

theorem parse_eq (limits : Limits) (source text : Text) :
    parse limits source text = close (root source) (sourceEvents limits source text) := rfl

/-- A source that is parsed to its end is scanned to its end. -/
theorem scan_finished (h : Event.halt? (sourceEvents limits source s) = none) :
    ∃ pos, (scan source s).ending = .finished pos := by
  have hnodes := halt?_of_group none _ (halt?_statements_eq_none.1 h).1
  cases he : (scan source s).ending with
  | finished pos => exact ⟨pos, rfl⟩
  | failed cause pos =>
    unfold nodes at hnodes
    rw [he] at hnodes
    simp only [Event.halt?_append, Option.or_eq_none_iff] at hnodes
    cases hnodes.2

theorem close_eq_error {opener : Node} {es : Events Node} {e : Fault} (h : (close opener es).result = .error e) :
    Event.halt? es = some e := by
  unfold close Event.outcome at h
  cases hhalt : Event.halt? es with
  | none => rw [hhalt] at h; cases h
  | some e' => rw [hhalt] at h; cases h; rfl

theorem close_error {opener : Node} {es : Events Node} {e : Fault} (h : Event.halt? es = some e) :
    (close opener es).result = .error e := by
  rw [close, Event.outcome, h]
  rfl

/-- Nodes that were read without complaints make a group without complaints. -/
theorem close_items (opener : Node) (ns : List Node) :
    close opener (ns.map .item) = ⟨[], .ok (opener.into opener.kind opener.text ns)⟩ := by
  rw [close, Event.reports_map_item, Event.outcome, Event.halt?_map_item, Event.items_map_item]
  rfl

/-- What is closed without a fault was never halted. -/
theorem halt?_of_close {opener n : Node} {es : Events Node} (h : (close opener es).result = .ok n) :
    Event.halt? es = none := by
  cases ho : Event.outcome es with
  | error e => simp [close, ho, Except.map] at h
  | ok ns => exact (Event.outcome_eq_ok_iff.1 ho).1

theorem halt?_sourceEvents {n : Node} (h : (parse limits source s).result = .ok n) :
    Event.halt? (sourceEvents limits source s) = none := by
  rw [parse_eq] at h
  exact halt?_of_close h

end Tree

end Kettle
