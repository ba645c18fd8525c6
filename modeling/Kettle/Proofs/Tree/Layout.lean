/-
Layout does not change trees. What the grammar sees of a source are the kinds of its tokens and, separators
apart, their texts: sources that agree in these have the same tree but for positions, and the same complaints
in the same order.
-/
import Kettle.Proofs.Tree.Append

namespace Kettle

/-- What a token says to the grammar: its kind, and its text if it is no separator. -/
def Token.word (t : Token) : Kind × Text := (t.kind, if t.kind = .separator then [] else t.text)

/-- What the tokens of a scan say to the grammar. -/
def Scan.words (s : Scan) : List (Kind × Text) := (s.tokens.filter fun t => !t.kind.isComment).map Token.word

namespace Tree

/-- The node at no position, and without its text if it is a separator. -/
def bareNode (n : Node) : Node :=
  if isSeparator n then ⟨n.kind, [], [], false, .start []⟩ else n.relocate .nowhere

/-- What is left of nodes, complaints and faults without layout. -/
def bare : Recast := ⟨bareNode, Complaint.relocate .nowhere, Fault.unplaced⟩

theorem bareNode_of_resolved {n : Node} (h : n.resolved = true) : bareNode n = n.relocate .nowhere :=
  if_neg (by simp [isSeparator, Node.isLoose, h])

theorem bareNode_of_opener {n : Node} (h : n.kind.closer?.isSome) : bareNode n = n.relocate .nowhere := by
  refine if_neg fun hsep => ?_
  rcases (Node.isSeparator_loose hsep).2 with hk | hk <;> simp [hk, Kind.closer?] at h

/-- Nothing notices that the layout is gone: separators only part statements, and no decision looks at a
position. -/
theorem bare_unnoticed : bare.Unnoticed where
  kind := fun n => by
    simp only [bare, bareNode]
    split <;> simp
  resolved := fun n => by
    simp only [bare, bareNode]
    split
    · rename_i hsep
      simp [(Node.isSeparator_loose hsep).1]
    · simp
  unclosed := fun ho => by
    simp [Pending.unclosed, Recast.pending, bare, bareNode_of_opener ho, Complaint.relocate]
  tooDeep := fun ho => by
    simp [bare, bareNode_of_opener ho, tooDeep, Fault.unplaced, Position.nowhere, Position.start]
  close := fun {n children} ho hchildren => by
    have hmap : children.map bareNode = children.map (Node.relocate .nowhere) :=
      List.map_congr_left fun c hc => bareNode_of_resolved (hchildren c hc)
    have hinto := bareNode_of_resolved (n := n.into n.kind n.text children) rfl
    simp [bare, bareNode_of_opener ho, hmap, hinto]
  settle := fun hsource hs hI => settle_relocate .nowhere hsource hs (fun m hm => (hI m hm).2)
    (List.map_congr_left fun n hn => if_neg (by simp [(hI n hn).1])) (fun _ hn => bareNode_of_resolved hn) rfl

/-- The bare node of a token is a matter of its word. -/
theorem bareNode_ofToken {t t' : Token} (h : t.word = t'.word) : bareNode (.ofToken t) = bareNode (.ofToken t') := by
  obtain ⟨kind, text, pos⟩ := t
  obtain ⟨kind', text', pos'⟩ := t'
  simp only [Token.word, Prod.mk.injEq] at h
  obtain ⟨rfl, htext⟩ := h
  by_cases hk : kind = .separator
  · subst hk
    rfl
  · simp only [hk, if_false] at htext
    subst htext
    simp only [bareNode]
    rfl

/-- The nodes of a source that is scanned to its end are those of its tokens, comments apart, and of its end. -/
theorem bare_nodes_finished {s : Scan} {pos : Position} (h : s.ending = .finished pos) : bare.events (nodes s) =
    ((s.tokens.filter fun t => !t.kind.isComment).map (bareNode ∘ Node.ofToken)).map .item ++
      [.item (bareNode (.ofToken ⟨.eof, [], .start []⟩))] := by
  have heof : bareNode (.ofToken ⟨.eof, [], pos⟩) = bareNode (.ofToken ⟨.eof, [], .start []⟩) := bareNode_ofToken rfl
  rw [nodes_finished h, ← heof]
  simp [Recast.events, tokenNodes, Event.map, bare, Function.comp_def]

theorem bare_nodes {s s' : Scan} {pos pos' : Position} (h : s.ending = .finished pos) (h' : s'.ending = .finished pos')
    (hwords : s.words = s'.words) : bare.events (nodes s) = bare.events (nodes s') := by
  have hmap : ∀ {ts ts' : List Token}, ts.map Token.word = ts'.map Token.word →
      ts.map (bareNode ∘ Node.ofToken) = ts'.map (bareNode ∘ Node.ofToken) := by
    intro ts
    induction ts with
    | nil =>
      intro ts' hts
      rw [List.map_nil, eq_comm, List.map_eq_nil_iff] at hts
      rw [hts]
    | cons t ts ih =>
      intro ts' hts
      obtain ⟨t', ts'', rfl, ht, hts⟩ := List.map_eq_cons_iff.1 hts.symm
      exact congrArg₂ List.cons (bareNode_ofToken ht.symm) (ih hts.symm)
  rw [bare_nodes_finished h, bare_nodes_finished h', hmap hwords]

theorem bare_parse (limits : Limits) (source text : Text) :
    bare.built (parse limits source text) =
      close (root []) (statements limits [] (groupAll limits (bare.events (nodes (scan source text))))) := by
  have hroot : bareNode (root source) = root [] := (bareNode_of_resolved rfl).trans rfl
  rw [bare_unnoticed.groupAll limits (nodes_items _),
    bare_unnoticed.statements (show tooDeep [] = bare.fault (tooDeep source) from rfl) (groupAll_delivered limits _),
    ← hroot]
  exact (bare_unnoticed.closing rfl (statements_resolved limits source _)).symm

end Tree

/-- Sources of which the same is left without layout are parsed to the same tree but for positions, or to faults that
are alike, with complaints of the same causes in the same order. -/
theorem agree_of_bare {limits : Limits} {source source' text text' : Text}
    (h : Tree.bare.built (parse limits source text) = Tree.bare.built (parse limits source' text')) :
    (parse limits source text).complaints.map Complaint.cause =
        (parse limits source' text').complaints.map Complaint.cause ∧
      Agree (fun t t' => t.same t' = true) (parse limits source text).result (parse limits source' text').result := by
  have hresolved : ∀ {source text : Text} {t : Node}, (parse limits source text).result = .ok t →
      Tree.bareNode t = t.relocate .nowhere := by
    intro source text t ht
    rw [Tree.close_eq_ok ht]
    exact Tree.bareNode_of_resolved rfl
  obtain ⟨hcomplaints, hresult⟩ := Tree.Built.mk.inj h
  constructor
  · have hcause := congrArg (List.map Complaint.cause) hcomplaints
    simpa [Tree.bare, Complaint.relocate, Function.comp_def] using hcause
  · cases ht : (parse limits source text).result with
    | ok t =>
      cases ht' : (parse limits source' text').result with
      | ok t' =>
        rw [ht, ht'] at hresult
        have hnode : Tree.bareNode t = Tree.bareNode t' := Except.ok.inj hresult
        rw [hresolved ht, hresolved ht'] at hnode
        exact (Node.same_iff t t').2 hnode
      | error f' => rw [ht, ht'] at hresult; cases hresult
    | error f =>
      cases ht' : (parse limits source' text').result with
      | ok t' => rw [ht, ht'] at hresult; cases hresult
      | error f' =>
        rw [ht, ht'] at hresult
        exact Except.error.inj hresult

/-- Sources that are scanned to their ends and whose tokens say the same to the grammar are parsed to the same
tree but for positions, or to faults that are alike, with complaints of the same causes in the same order. -/
theorem parse_layout (limits : Limits) {source source' text text' : Text} {pos pos' : Position}
    (h : (scan source text).ending = .finished pos) (h' : (scan source' text').ending = .finished pos')
    (hwords : (scan source text).words = (scan source' text').words) :
    (parse limits source text).complaints.map Complaint.cause =
        (parse limits source' text').complaints.map Complaint.cause ∧
      Agree (fun t t' => t.same t' = true) (parse limits source text).result (parse limits source' text').result := by
  refine agree_of_bare ?_
  rw [Tree.bare_parse, Tree.bare_parse, Tree.bare_nodes h h' hwords]

end Kettle
