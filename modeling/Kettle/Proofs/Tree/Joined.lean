/-
Trees of joined sources. Where a source leaves no bracket open, what follows it behind a separator is
parsed as if it stood alone: the statements and the complaints of two sources with a line of a semicolon
between them are those of the first one and those of the second one further down. So a statement that is
dropped changes nothing around it.
-/
import Kettle.Proofs.Tree.Halt

namespace Kettle

theorem Position.down_down (k l : Nat) : Position.down l ∘ Position.down k = Position.down (k + l) := by
  funext p
  simp [Position.down, Nat.add_assoc]

namespace Tree

variable {limits : Limits} {source s u : Text}

/-- The events of two sources with a line of a semicolon between them: those of the first one, and those
of the second one further down. -/
theorem sourceEvents_join {pos pos' : Position} (hs : (scan source s).ending = .finished pos)
    (hopen : ∀ c ∈ (parse limits source s).complaints, c.isUnclosed = false)
    (hu : (scan source u).ending = .finished pos') :
    ∃ k, sourceEvents limits source (s ++ ("\n;\n" ++ u)) =
      Event.chain (sourceEvents limits source s) (relocate (Position.down k) (sourceEvents limits source u)) := by
  obtain ⟨seps, k, hne, hkind, hscan⟩ := scan_join hs u
  refine ⟨k, ?_⟩
  have hsep := isSeparator_tokenNodes hkind
  -- the nodes: those of the first source without its end, separators, those of the second one
  have hnodes : nodes (scan source (s ++ ("\n;\n" ++ u))) = (tokenNodes (scan source s).tokens).map .item ++
      ((tokenNodes seps).map .item ++ relocate (Position.down k) (nodes (scan source u))) := by
    rw [hscan, nodes_prepend, nodes_relocate _ hu, tokenNodes_append, List.map_append, List.append_assoc]
  have hmoved := moved_unnoticed (φ := Position.down k) fun _ => rfl
  obtain ⟨done, ⟨hdone, hrest⟩ | ⟨⟨p, more, hdone⟩, hrest⟩⟩ := group_append
    (fun n ns => (build limits limits.brackets n ns).events) (.ofToken ⟨.eof, [], pos⟩) rfl none
    ((tokenNodes (scan source s).tokens).map .item) (by simp)
  · -- grouping ends where the first source ends, so the second one is grouped as if it stood alone
    have hfirst : sourceEvents limits source s = statements limits source done := by
      unfold sourceEvents groupAll
      rw [nodes_finished hs, hdone, statements_chain rfl]
      exact Event.each_chain_nil _
    have hjoined : groupAll limits (nodes (scan source (s ++ ("\n;\n" ++ u)))) = Event.chain done
        ((tokenNodes seps).map .item ++ relocate (Position.down k) (groupAll limits (nodes (scan source u)))) := by
      rw [hnodes, relocate, relocate, ← hmoved.groupAll limits (nodes_items _)]
      unfold groupAll
      rw [hrest, group_separators hsep]
    obtain ⟨sep, seps', hseps⟩ : ∃ sep seps', tokenNodes seps = sep :: seps' := by
      cases seps with
      | nil => exact absurd rfl hne
      | cons t ts =>
        have ht := hkind t (by simp)
        exact ⟨.ofToken t, tokenNodes ts, by simp [tokenNodes, ht, Kind.isComment]⟩
    rw [sourceEvents, hjoined, hseps, List.map_cons, List.cons_append, statements_chain (hsep sep (by simp [hseps])),
      statements_separators fun m hm => hsep m (by simp [hseps, hm]), ← hfirst, relocate,
      hmoved.statements rfl (groupAll_delivered limits _)]
    rfl
  · -- the complaint about a bracket that is open is lost behind a halt, as is the second source
    have hfirst : sourceEvents limits source s =
        statements limits source (Event.chain done (.report p.unclosed :: more)) := by
      unfold sourceEvents groupAll
      rw [nodes_finished hs, hdone]
    have hlost : Event.report p.unclosed ∉ sourceEvents limits source s := by
      intro hmem
      cases hopen p.unclosed (by rw [parse_eq]; exact Event.mem_reports.2 hmem)
    obtain ⟨e, he⟩ : ∃ e, Event.halt? (sourceEvents limits source s) = some e := by
      rw [← Option.ne_none_iff_exists']
      intro hnone
      rw [hfirst] at hlost hnone
      have hgrouped := (halt?_statements_eq_none.1 hnone).1
      rw [Event.halt?_chain, Option.or_eq_none_iff] at hgrouped
      refine hlost (report_mem_statements hnone ?_)
      rw [Event.chain_eq_append hgrouped.1]
      simp
    obtain ⟨more', hmore'⟩ := hrest ((tokenNodes seps).map .item ++ relocate (Position.down k) (nodes (scan source u)))
    rw [Event.chain_of_halt he [], sourceEvents, hnodes, groupAll, hmore', statements_lost (hfirst ▸ hlost) more', hfirst,
      statements, Event.each_chain_nil]

/-- The parse of two sources with a line of a semicolon between them: if the first one is parsed to its
end, the second one is parsed as it is alone, and else it is not looked at. -/
theorem parse_chain {pos pos' : Position} (hs : (scan source s).ending = .finished pos)
    (hopen : ∀ c ∈ (parse limits source s).complaints, c.isUnclosed = false)
    (hu : (scan source u).ending = .finished pos') :
    ∃ k, (∀ first, (parse limits source s).result = .ok first →
        (parse limits source (s ++ ("\n;\n" ++ u))).complaints = (parse limits source s).complaints ++
          (parse limits source u).complaints.map (Complaint.relocate (Position.down k)) ∧
        (parse limits source (s ++ ("\n;\n" ++ u))).result = (parse limits source u).result.map fun second =>
          first.into first.kind first.text
            (first.children ++ second.children.map (Node.relocate (Position.down k)))) ∧
      ∀ fault, (parse limits source s).result = .error fault →
        parse limits source (s ++ ("\n;\n" ++ u)) = parse limits source s := by
  obtain ⟨k, hk⟩ := sourceEvents_join hs hopen hu
  refine ⟨k, fun first hfirst => ?_, fun fault hfault => ?_⟩
  · have hhalt := halt?_sourceEvents hfirst
    rw [Event.chain_eq_append hhalt] at hk
    refine ⟨?_, ?_⟩
    · simp only [parse_eq, close, hk, Event.reports_append]
      exact congrArg _ (Event.reports_map ..)
    · have hmap : Event.outcome (relocate (Position.down k) (sourceEvents limits source u)) =
          (Event.outcome (sourceEvents limits source u)).map (List.map (Node.relocate (Position.down k))) := by
        refine (Event.outcome_map ..).trans ?_
        cases Event.outcome (sourceEvents limits source u) <;> rfl
      have hoadd : Event.outcome (sourceEvents limits source (s ++ ("\n;\n" ++ u))) =
          (Event.outcome (relocate (Position.down k) (sourceEvents limits source u))).map
            (Event.items (sourceEvents limits source s) ++ ·) := by
        rw [hk, Event.outcome, Event.outcome, Event.halt?_append, hhalt, Event.items_append, Option.none_or]
        cases Event.halt? (relocate (Position.down k) (sourceEvents limits source u)) <;> rfl
      rw [close_eq_ok hfirst, parse_eq, parse_eq, close, close, hoadd, hmap]
      cases Event.outcome (sourceEvents limits source u) <;> rfl
  · have hhalt : Event.halt? (sourceEvents limits source s) = some fault := close_eq_error hfault
    rw [parse_eq, parse_eq, hk, Event.chain_of_halt hhalt [], sourceEvents, statements, Event.each_chain_nil]

end Tree

open Kettle.Tree in
/-- Two sources with a line of a semicolon between them are parsed as each of them alone, if the first one
leaves no bracket open: the complaints are those of both, and so are the statements. -/
theorem parse_join {limits : Limits} {source s u : Text} {first second : Node}
    (hfirst : (parse limits source s).result = .ok first)
    (hopen : ∀ c ∈ (parse limits source s).complaints, c.isUnclosed = false)
    (hsecond : (parse limits source u).result = .ok second) :
    ∃ k, (parse limits source (s ++ ("\n;\n" ++ u))).complaints = (parse limits source s).complaints ++
        (parse limits source u).complaints.map (Complaint.relocate (Position.down k)) ∧
      (parse limits source (s ++ ("\n;\n" ++ u))).result = .ok (first.into first.kind first.text
        (first.children ++ second.children.map (Node.relocate (Position.down k)))) := by
  obtain ⟨pos, hs⟩ := scan_finished (halt?_sourceEvents hfirst)
  obtain ⟨pos', hu⟩ := scan_finished (halt?_sourceEvents hsecond)
  obtain ⟨k, hk, -⟩ := parse_chain hs hopen hu
  obtain ⟨hcomplaints, hresult⟩ := hk first hfirst
  exact ⟨k, hcomplaints, by rw [hresult, hsecond]; rfl⟩

/-- A source whose statements are all dropped, between two others, leaves the statements of both as they are,
and all complaints in their order. -/
theorem parse_dropped {limits : Limits} {source s d u : Text} {first dropped second : Node}
    (hfirst : (parse limits source s).result = .ok first)
    (hopen : ∀ c ∈ (parse limits source s).complaints, c.isUnclosed = false)
    (hdropped : (parse limits source d).result = .ok dropped) (hnone : dropped.children = [])
    (hclosed : ∀ c ∈ (parse limits source d).complaints, c.isUnclosed = false)
    (hsecond : (parse limits source u).result = .ok second) :
    ∃ j k, (parse limits source (s ++ ("\n;\n" ++ (d ++ ("\n;\n" ++ u))))).complaints =
        (parse limits source s).complaints ++
          (parse limits source d).complaints.map (Complaint.relocate (Position.down j)) ++
          (parse limits source u).complaints.map (Complaint.relocate (Position.down k)) ∧
      (parse limits source (s ++ ("\n;\n" ++ (d ++ ("\n;\n" ++ u))))).result = .ok (first.into first.kind first.text
        (first.children ++ second.children.map (Node.relocate (Position.down k)))) := by
  obtain ⟨k, hcomplaints, hrest⟩ := parse_join hdropped hclosed hsecond
  obtain ⟨j, hcomplaints', hall⟩ := parse_join hfirst hopen hrest
  have hcomplaint : Complaint.relocate (Position.down j) ∘ Complaint.relocate (Position.down k) =
      Complaint.relocate (Position.down (k + j)) := by
    funext c
    exact congrArg (Complaint.mk c.cause) (congrFun (Position.down_down k j) c.pos)
  have hnode : Node.relocate (Position.down j) ∘ Node.relocate (Position.down k) =
      Node.relocate (Position.down (k + j)) := by
    funext n
    rw [Function.comp, Node.relocate_relocate, Position.down_down]
  refine ⟨j, k + j, ?_, ?_⟩
  · rw [hcomplaints', hcomplaints, List.map_append, List.map_map, hcomplaint, List.append_assoc]
  · simp only [hall, hnone, List.nil_append, Node.into, List.map_map, hnode]

/-- Parsing is compositional, and complaints stay local. Of two sources that are scanned to their ends, the
first one without a bracket left open, with a line of a semicolon between them, come the statements of both
and the complaints of both in this order, those of the second one on lines further down. Only brackets or nodes
that go too deep stop a parse, and then the joined source stops as the pieces do. What is dropped in the middle
changes neither what is before it nor what is after it. -/
theorem parse_compositional (limits : Limits) (source : Text) {s u : Text} {pos pos' : Position}
    (hs : (scan source s).ending = .finished pos) (hu : (scan source u).ending = .finished pos')
    (hopen : ∀ c ∈ (parse limits source s).complaints, c.isUnclosed = false) :
    (∃ k, ∀ first, (parse limits source s).result = .ok first →
      (parse limits source (s ++ ("\n;\n" ++ u))).complaints = (parse limits source s).complaints ++
        (parse limits source u).complaints.map (Complaint.relocate (Position.down k)) ∧
      (∀ second, (parse limits source u).result = .ok second →
        (parse limits source (s ++ ("\n;\n" ++ u))).result = .ok (first.into first.kind first.text
          (first.children ++ second.children.map (Node.relocate (Position.down k))))) ∧
      ∀ fault, (parse limits source u).result = .error fault →
        fault = Tree.tooDeep source ∧ (parse limits source (s ++ ("\n;\n" ++ u))).result = .error fault) ∧
    (∀ fault, (parse limits source s).result = .error fault →
      fault = Tree.tooDeep source ∧ parse limits source (s ++ ("\n;\n" ++ u)) = parse limits source s) ∧
    ∀ (d : Text) (first dropped second : Node), (parse limits source s).result = .ok first →
      (parse limits source d).result = .ok dropped → dropped.children = [] →
      (∀ c ∈ (parse limits source d).complaints, c.isUnclosed = false) →
      (parse limits source u).result = .ok second →
      ∃ j k, (parse limits source (s ++ ("\n;\n" ++ (d ++ ("\n;\n" ++ u))))).complaints =
          (parse limits source s).complaints ++
            (parse limits source d).complaints.map (Complaint.relocate (Position.down j)) ++
            (parse limits source u).complaints.map (Complaint.relocate (Position.down k)) ∧
        (parse limits source (s ++ ("\n;\n" ++ (d ++ ("\n;\n" ++ u))))).result =
          .ok (first.into first.kind first.text
            (first.children ++ second.children.map (Node.relocate (Position.down k)))) := by
  have htooDeep : ∀ {text : Text} {pos : Position} {fault : Fault}, (scan source text).ending = .finished pos →
      (parse limits source text).result = .error fault → fault = Tree.tooDeep source := by
    intro text pos fault hscan hfault
    rcases parse_finished limits hscan with hdeep | ⟨root, hok⟩
    · exact Except.error.inj (hfault.symm.trans hdeep)
    · cases hfault.symm.trans hok
  obtain ⟨k, hok, herror⟩ := Tree.parse_chain hs hopen hu
  refine ⟨⟨k, fun first hfirst => ?_⟩, fun fault hfault => ⟨htooDeep hs hfault, herror fault hfault⟩, ?_⟩
  · obtain ⟨hcomplaints, hresult⟩ := hok first hfirst
    refine ⟨hcomplaints, fun second hsecond => ?_, fun fault hfault => ⟨htooDeep hu hfault, ?_⟩⟩
    · rw [hresult, hsecond]; rfl
    · rw [hresult, hfault]; rfl
  · intro d first dropped second hfirst hdropped hnone hclosed hsecond
    exact parse_dropped hfirst hopen hdropped hnone hclosed hsecond

/-- A stray bracket, an operator without its operand and a comment before the join: both complaints stay where
they are, and the statements behind them are kept. -/
theorem parse_compositional_stray : ∃ k first second,
    (parse .standard [] "a = 1; ) b +  # end").result = .ok first ∧ (parse .standard [] "c * 2").result = .ok second ∧
      (parse .standard [] "a = 1; ) b +  # end").complaints.length = 1 ∧
      parse .standard [] ("a = 1; ) b +  # end" ++ ("\n;\n" ++ "c * 2")) =
        ⟨(parse .standard [] "a = 1; ) b +  # end").complaints, .ok (first.into first.kind first.text
          (first.children ++ second.children.map (Node.relocate (Position.down k))))⟩ := by
  let place (column : Nat) : Position := ⟨1, column, []⟩
  let leaf (kind : Kind) (text : Text) (column : Nat) : Node := ⟨kind, text, [], true, place column⟩
  let root (n : Node) : Node := (Tree.root []).into .lbrace "\x7b" [n]
  let first : Node := root ⟨.assign, "=", [leaf .ident "a" 1, leaf .number "1" 5], true, place 3⟩
  let second : Node := root ⟨.star, "*", [leaf .ident "c" 1, leaf .number "2" 5], true, place 3⟩
  have hs : (scan [] "a = 1; ) b +  # end").ending = .finished (place 20) := by decide +kernel
  have hu : (scan [] "c * 2").ending = .finished (place 6) := by decide +kernel
  have hfirst : (parse .standard [] "a = 1; ) b +  # end").result = .ok first := by decide +kernel
  have hstray : (parse .standard [] "a = 1; ) b +  # end").complaints = [⟨.misplaced ")", place 8⟩] := by decide +kernel
  have hsecond : (parse .standard [] "c * 2").result = .ok second := by decide +kernel
  have hclean : (parse .standard [] "c * 2").complaints = [] := by decide +kernel
  obtain ⟨⟨k, hk⟩, -⟩ := parse_compositional .standard [] hs hu (by rw [hstray]; decide)
  obtain ⟨hcomplaints, hresult, -⟩ := hk first hfirst
  refine ⟨k, first, second, hfirst, hsecond, by rw [hstray]; rfl, ?_⟩
  rw [hclean, List.map_nil, List.append_nil] at hcomplaints
  rw [← hcomplaints, ← hresult second hsecond]

end Kettle
