/-
A parse that is interrupted. Where no token can be taken, the tokens so far are those of the text before that place, and
the stages have handed on what they hand on for that text, up to some point: the nodes of an open bracket and of the last
statement are lost, and everything that was complained about is complained about, first and in the same order, if the
text ends there. The parse stops with the lexical fault, unless something that is complete before it goes too deep: then
it stopped there, as it does for the text before the fault.
-/
import Kettle.Proofs.Token.Position
import Kettle.Proofs.Tree.Depth
import Kettle.Proofs.Tree.Schedule

namespace Kettle

/-! ## Scans that fail -/

theorem Lexeme.Ends.of_append {kind : Kind} {text before rest : Text} (h : Ends kind text (before ++ rest)) :
    Ends kind text before := by
  cases before with
  | nil => simp [Ends]
  | cons c before => exact h

/-- The scan of the text before the place where a scan fails comes to its end there, with the same tokens. -/
theorem Scan.scanFrom_until (source text : Text) : ∀ (c : Cursor) (last : Option Kind) {cause : LexicalCause}
    {pos : Position}, (scanFrom source c last text).ending = .failed cause pos →
    ∃ before rest, text = before ++ rest ∧ Lexeme.Stuck cause rest ∧ pos = (c.advance before).position source ∧
      scanFrom source c last before = ⟨(scanFrom source c last text).tokens, .finished pos⟩ := by
  induction text using inductionOn with
  | nil =>
    intro c last cause pos h
    rw [scanFrom_nil] at h
    cases h
  | space r text hspace ih =>
    intro c last cause pos h
    rw [scanFrom_space hspace] at h ⊢
    split at h
    · rename_i hbreak
      obtain ⟨before, rest, rfl, hstuck, hpos, hscan⟩ := ih (c.step r) (some .separator) h
      refine ⟨r :: before, rest, rfl, hstuck, hpos, ?_⟩
      rw [scanFrom_space hspace, if_pos hbreak, if_pos hbreak, hscan]
      rfl
    · rename_i hbreak
      obtain ⟨before, rest, rfl, hstuck, hpos, hscan⟩ := ih (c.step r) last h
      refine ⟨r :: before, rest, rfl, hstuck, hpos, ?_⟩
      rw [scanFrom_space hspace, if_neg hbreak, if_neg hbreak, hscan]
  | error r text cause' hspace hread =>
    intro c last cause pos h
    rw [scanFrom_error hspace hread] at h ⊢
    obtain ⟨rfl, rfl⟩ := Ending.failed.inj h
    exact ⟨[], r :: text, rfl, Lexeme.stuck_of_read hspace hread, rfl, scanFrom_nil ..⟩
  | lexeme r text l hspace hread ih =>
    intro c last cause pos h
    have htaken := Lexeme.taken_of_read hspace hread
    have htext : r :: text = r :: l.more ++ l.rest := by rw [List.cons_append, Lexeme.read_append hread]
    rw [scanFrom_lexeme hspace hread] at h ⊢
    obtain ⟨before, rest, hrest, hstuck, hpos, hscan⟩ := ih _ _ h
    rw [hrest] at htaken htext
    -- the token ends before the place as it does in the whole text
    have hagain : Lexeme.read r (l.more ++ before) = .ok ⟨l.kind, l.more, before⟩ :=
      Lexeme.read_of_spells htaken.spells htaken.ends.of_append
    refine ⟨r :: l.more ++ before, rest, by rw [htext, List.append_assoc], hstuck, ?_, ?_⟩
    · rw [hpos, ← Cursor.advance_append]
    · rw [List.cons_append, scanFrom_lexeme hspace hagain, hscan]
      rfl

/-! ## Events that are broken off -/

namespace Event

variable {ρ ε α β : Type} {e : ε} {es es' : List (Event ρ ε α)}

/-- Events that a halt breaks off, and others that go on there. -/
def BrokenOff (e : ε) (es es' : List (Event ρ ε α)) : Prop :=
  ∃ done more, es = chain done [halt e] ∧ es' = chain done more

theorem brokenOff_halt (e : ε) (more : List (Event ρ ε α)) : BrokenOff e [halt e] more := ⟨[], more, rfl, rfl⟩

theorem BrokenOff.chain (h : BrokenOff e es es') (before : List (Event ρ ε α)) :
    BrokenOff e (chain before es) (chain before es') := by
  obtain ⟨done, more, rfl, rfl⟩ := h
  exact ⟨Event.chain before done, more, (chain_assoc ..).symm, (chain_assoc ..).symm⟩

theorem BrokenOff.each (h : BrokenOff e es es') (f : α → List (Event ρ ε β)) :
    BrokenOff e (each f es) (each f es') := by
  obtain ⟨done, more, rfl, rfl⟩ := h
  rw [each_chain, each_chain]
  exact ⟨_, _, rfl, rfl⟩

/-- A stage that works on events as they come has done the same up to where they are broken off. -/
theorem BrokenOff.run {σ : Type} (h : BrokenOff e es es') (w : Worker ρ ε σ α β) (s : σ) :
    BrokenOff e (w.run s es) (w.run s es') := by
  obtain ⟨done, more, rfl, rfl⟩ := h
  induction done generalizing s with
  | nil => exact brokenOff_halt e _
  | cons event done ih =>
    cases event with
    | item a => exact (ih _).chain _
    | report r => exact (ih s).chain [report r]
    | halt f => exact ⟨[halt f], [], rfl, rfl⟩

/-- Nothing is reported before the break that is not reported without it. -/
theorem BrokenOff.reports (h : BrokenOff e es es') : reports es <+: reports es' := by
  obtain ⟨done, more, rfl, rfl⟩ := h
  cases hdone : halt? done with
  | some f => exact (congrArg Event.reports (chain_of_halt hdone more)) ▸ List.prefix_rfl
  | none =>
    rw [chain_eq_append hdone, chain_eq_append hdone, reports_append, reports_append]
    exact (List.prefix_append_right_inj _).2 List.nil_prefix

/-- Either the halt comes at the break, or there was one before it. -/
theorem BrokenOff.halt?_eq (h : BrokenOff e es es') : halt? es = some e ∨ es = es' := by
  obtain ⟨done, more, rfl, rfl⟩ := h
  cases hdone : halt? done with
  | some f => exact .inr (chain_of_halt hdone more)
  | none =>
    rw [halt?_chain, hdone]
    exact .inl rfl

end Event

namespace Tree

open Event (halt? items)

variable {limits : Limits} {source text before : Text} {cause : LexicalCause} {pos : Position}
variable {ns : List Node} {depth : Nat}

/-- What a source that cannot be scanned to its end hands on is broken off where the text before the fault goes on. -/
theorem sourceEvents_brokenOff (limits : Limits) (hfailed : (scan source text).ending = .failed cause pos)
    (hbefore : scan source before = ⟨(scan source text).tokens, .finished pos⟩) :
    Event.BrokenOff (.lexical cause pos) (sourceEvents limits source text) (sourceEvents limits source before) := by
  have hfinished : (scan source before).ending = .finished pos := by rw [hbefore]
  have hnodes : Event.BrokenOff (.lexical cause pos) (nodes (scan source text)) (nodes (scan source before)) := by
    rw [nodes_failed hfailed, nodes_finished hfinished, hbefore]
    refine ⟨(tokenNodes (scan source text).tokens).map .item, [.item (.ofToken ⟨.eof, [], pos⟩)], ?_, ?_⟩ <;>
      rw [Event.chain_eq_append (Event.halt?_map_item _)]
  have hgrouped := (hnodes.run (bracketStage (build limits limits.brackets)) none).run splitStage []
  rw [bracketStage_run, bracketStage_run, splitStage_run, splitStage_run] at hgrouped
  exact hgrouped.each (settle limits source)

/-! ## How deep what is before a fault goes -/

theorem tokenNodes_isToken (ts : List Token) : ∀ n ∈ tokenNodes ts, IsToken n := by
  intro n hn
  obtain ⟨t, -, rfl⟩ := List.mem_map.1 hn
  exact ⟨t, rfl⟩

/-- A parse comes to the fault if there are no more tokens before it than either limit. -/
theorem parse_few (hfailed : (scan source text).ending = .failed cause pos)
    (hbrackets : (tokenNodes (scan source text).tokens).length ≤ limits.brackets)
    (hnodes : (tokenNodes (scan source text).tokens).length ≤ limits.nodes) :
    (parse limits source text).result = .error (.lexical cause pos) := by
  have ht := tokenNodes_isToken (scan source text).tokens
  have hitems : items ((tokenNodes (scan source text).tokens).map .item ++ [.halt (.lexical cause pos)] : Events Node) =
      tokenNodes (scan source text).tokens := by
    rw [Event.items_append, Event.items_map_item]
    exact List.append_nil _
  have htokens : Event.Items IsToken
      ((tokenNodes (scan source text).tokens).map .item ++ [.halt (.lexical cause pos)] : Events Node) := by
    intro n hn
    exact ht n (by rwa [← Event.mem_items, hitems] at hn)
  refine close_error ?_
  rw [nodes_failed hfailed, groupAll, halt?_statements_few limits.brackets htokens (by rwa [hitems]),
    halt?_group_of_sublist, Event.halt?_append, Event.halt?_map_item]
  · rfl
  · intro o ns hsub
    rw [hitems] at hsub
    have hlength := hsub.length_le
    simp only [Pending.held, List.nil_append, List.length_cons] at hlength
    exact halt?_build_few limits.brackets o ns (fun n hn => ht n (hsub.subset (List.mem_cons_of_mem _ hn)))
      (by omega) (by omega)

/-- Behind well-nested brackets that go too deep a parse does not come to the fault. -/
theorem WellNested.parse_failed (h : WellNested (tokenNodes (scan source text).tokens))
    (hfailed : (scan source text).ending = .failed cause pos)
    (hdeep : limits.brackets < bracketDepth (tokenNodes (scan source text).tokens)) :
    (parse limits source text).result = .error (tooDeep source) := by
  have hsource : ∀ n ∈ tokenNodes (scan source text).tokens, Within source n := by
    intro n hn
    refine nodes_within source text n ?_
    rw [nodes_failed hfailed]
    exact List.mem_append_left _ (List.mem_map_of_mem hn)
  have hgroup := h.halt?_deep limits (tokenNodes_isToken _) (tokenNodes_ne_eof source text) hsource hdeep
    [.halt (.lexical cause pos)]
  rw [← nodes_failed hfailed] at hgroup
  refine close_error ?_
  cases hhalt : halt? (statements limits source (groupAll limits (nodes (scan source text)))) with
  | none => cases (halt?_statements_eq_none.1 hhalt).1.symm.trans hgroup
  | some e =>
    rcases halt?_statements hhalt with rfl | he
    · rfl
    · exact he.symm.trans hgroup

end Tree

/-- A parse that a lexical fault interrupts. The fault is at the end of a text that is scanned to its end with the same
tokens, and what was complained about before it is what comes first, in the same order, of what is complained about in
that text. The parse stops with the fault, or else it stopped before it, as it does for that text, at something that goes
too deep. So it stops with the fault if that text has a tree, and also if no more tokens are before the fault than either
limit; behind well-nested brackets that go too deep it does not. -/
theorem complaints_before_lexical_faults (limits : Limits) {source text : Text} {cause : LexicalCause} {pos : Position}
    (h : (scan source text).ending = .failed cause pos) :
    ∃ before rest, text = before ++ rest ∧ Lexeme.Stuck cause rest ∧ pos = .behind source before ∧
      scan source before = ⟨(scan source text).tokens, .finished pos⟩ ∧
      (parse limits source text).complaints <+: (parse limits source before).complaints ∧
      ((parse limits source text).result = .error (.lexical cause pos) ∨
        (parse limits source text).result = .error (Tree.tooDeep source) ∧
          parse limits source text = parse limits source before) ∧
      (∀ tree, (parse limits source before).result = .ok tree →
        (parse limits source text).result = .error (.lexical cause pos)) ∧
      ((Tree.tokenNodes (scan source text).tokens).length ≤ limits.brackets →
        (Tree.tokenNodes (scan source text).tokens).length ≤ limits.nodes →
          (parse limits source text).result = .error (.lexical cause pos)) ∧
      (Tree.WellNested (Tree.tokenNodes (scan source text).tokens) →
        limits.brackets < Tree.bracketDepth (Tree.tokenNodes (scan source text).tokens) →
          (parse limits source text).result = .error (Tree.tooDeep source)) := by
  obtain ⟨before, rest, htext, hstuck, hpos, hscan⟩ := Scan.scanFrom_until source text .start none h
  have hbroken := Tree.sourceEvents_brokenOff limits h hscan
  have hways : (parse limits source text).result = .error (.lexical cause pos) ∨
      (parse limits source text).result = .error (Tree.tooDeep source) ∧
        parse limits source text = parse limits source before := by
    rcases hbroken.halt?_eq with hhalt | hsame
    · exact .inl (Tree.close_error hhalt)
    · have hparse : parse limits source text = parse limits source before := by rw [Tree.parse_eq, Tree.parse_eq, hsame]
      have hfinished : (scan source before).ending = .finished pos := congrArg Scan.ending hscan
      rcases parse_finished limits hfinished with hdeep | ⟨root, hroot⟩
      · exact .inr ⟨by rw [hparse, hdeep], hparse⟩
      · rw [← hparse] at hroot
        obtain ⟨pos', hpos'⟩ := Tree.scan_finished (Tree.halt?_sourceEvents hroot)
        cases h.symm.trans hpos'
  refine ⟨before, rest, htext, hstuck, by rw [hpos, Cursor.position_advance_start], hscan, hbroken.reports, hways,
    fun tree htree => hways.resolve_right ?_, Tree.parse_few h, fun hnested => hnested.parse_failed h⟩
  rintro ⟨hdeep, hsame⟩
  rw [hsame, htree] at hdeep
  cases hdeep

/-- A fault inside an open bracket, behind two statements that are complained about. -/
theorem complaints_before_lexical_faults_open :
    (scan [] "1 2; (* 3); (4 @").ending = .failed (.unrecognized '@') ⟨1, 16, []⟩ ∧
      (parse .standard [] "1 2; (* 3); (4 @").complaints.length = 2 ∧
      (parse .standard [] "1 2; (* 3); (4 @").result = .error (.lexical (.unrecognized '@') ⟨1, 16, []⟩) ∧
      ∃ before rest, Text.ofString "1 2; (* 3); (4 @" = before ++ rest ∧ Lexeme.Stuck (.unrecognized '@') rest ∧
        (parse .standard [] "1 2; (* 3); (4 @").complaints <+: (parse .standard [] before).complaints := by
  have hfailed : (scan [] "1 2; (* 3); (4 @").ending = .failed (.unrecognized '@') ⟨1, 16, []⟩ := by decide +kernel
  have hcomplaints : (parse .standard [] "1 2; (* 3); (4 @").complaints.length = 2 := by decide +kernel
  have hfew : (Tree.tokenNodes (scan [] "1 2; (* 3); (4 @").tokens).length = 10 := by decide +kernel
  obtain ⟨before, rest, htext, hstuck, -, -, hprefix, -, -, hresult, -⟩ :=
    complaints_before_lexical_faults .standard hfailed
  refine ⟨hfailed, hcomplaints, hresult ?_ ?_, before, rest, htext, hstuck, hprefix⟩ <;> rw [hfew] <;> decide

/-! ## Brackets that go too deep before a fault -/

/-- A text with a lexical fault, and before it more brackets inside one another than may be: the parse stops at these
brackets, and not with the fault. -/
theorem deep_brackets_hide_lexical_fault :
    ∃ pos, (scan [] (Tree.parens 1200 "@")).ending = .failed (.unrecognized '@') pos ∧
      (parse .standard [] (Tree.parens 1200 "@")).result ≠ .error (.lexical (.unrecognized '@') pos) := by
  obtain ⟨c, last, ts, hscan, hnested, hdepth, -⟩ := Tree.scan_parens [] 1200 "@"
  have hstop : Scan.scanFrom [] c last "@" = ⟨[], .failed (.unrecognized '@') (c.position [])⟩ :=
    Scan.scanFrom_error (by decide) (by rfl)
  rw [hstop] at hscan
  generalize Tree.parens 1200 "@" = text at hscan ⊢
  have htokens : (scan [] text).tokens = ts := by simp [hscan, Scan.prepend]
  have hfailed : (scan [] text).ending = .failed (.unrecognized '@') (c.position []) := by rw [hscan]; rfl
  rw [← htokens] at hnested hdepth
  refine ⟨_, hfailed, fun hlexical => ?_⟩
  have hdeep : Limits.standard.brackets < Tree.bracketDepth (Tree.tokenNodes (scan [] text).tokens) := by
    rw [hdepth]
    decide
  cases (hnested.parse_failed hfailed hdeep).symm.trans hlexical

end Kettle
