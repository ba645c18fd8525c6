/-
What stops a parse: a place where no token can be taken, or brackets or nodes that go too deep. Statements that do
not reduce and brackets that are not closed are complained about, and the parse goes on.
-/
import Kettle.Proofs.Token.Layout
import Kettle.Proofs.Tree.Append
import Kettle.Proofs.Tree.Delivered

namespace Kettle

namespace Tree

open Event (Items halt?)

variable {T : Node → Prop} {P : Fault → Prop} {source : Text}

theorem mem_of_halt? {es : Events Node} {e : Fault} (h : halt? es = some e) : Event.halt e ∈ es := by
  induction es with
  | nil => cases h
  | cons event es ih =>
    cases event with
    | item a => exact List.mem_cons_of_mem _ (ih h)
    | report r => exact List.mem_cons_of_mem _ (ih h)
    | halt f => cases h; simp

/-- Where building the inside of brackets stops for some reasons only, so does grouping. -/
theorem group_halts {build : Node → List Node → Events Node}
    (hb : ∀ o ns, T o → (∀ n ∈ ns, T n) → ∀ e, Event.halt e ∈ build o ns → P e) {es : Events Node} (hes : Items T es)
    (hhalt : ∀ e, Event.halt e ∈ es → P e) {e : Fault} (h : halt? (group build none es) = some e) : P e := by
  refine group_events (E := fun event => ∀ e, event = .halt e → P e) ?_ ?_ ?_ none es (by simp) hes ?_ _
    (mem_of_halt? h) e rfl
  · rintro o ns - ho hns _ he e rfl
    exact hb o ns ho hns e he
  · rintro c e ⟨⟩
  · rintro n - e ⟨⟩
  · rintro f hf e ⟨⟩
    exact hhalt f hf

theorem Built.halt_mem_events {b : Built} {e : Fault} (h : Event.halt e ∈ b.events) : b.result = .error e := by
  rcases List.mem_append.1 h with h | h
  · simp at h
  · rw [List.mem_singleton] at h
    split at h
    · cases h
    · rename_i hb
      cases h
      exact hb

/-- A node of a source. -/
def Within (source : Text) (n : Node) : Prop := n.pos.source = source

/-- Building brackets stops only where they or the nodes in them go too deep. -/
theorem build_halts {limits : Limits} (hdeep : ∀ n, T n → P (tooDeep n.pos.source)) :
    ∀ (depth : Nat) {opener : Node} {inner : List Node} {e : Fault}, T opener → (∀ n ∈ inner, T n) →
      (build limits depth opener inner).result = .error e → P e
  | 0, opener, _, e, ho, _, h => by
    obtain rfl : tooDeep opener.pos.source = e := Except.error.inj h
    exact hdeep opener ho
  | depth + 1, opener, inner, e, ho, hi, h => by
    rcases halt?_statements (close_eq_error h) with rfl | hhalt
    · exact hdeep opener ho
    refine group_halts (T := T) (P := P) ?_ (.map_item hi) (by simp) hhalt
    exact fun o ns ho hns e he => build_halts hdeep depth ho hns (Built.halt_mem_events he)

theorem build_error {limits : Limits} {depth : Nat} {opener : Node} {inner : List Node} {e : Fault}
    (ho : Within source opener) (hi : ∀ n ∈ inner, Within source n)
    (h : (build limits depth opener inner).result = .error e) : e = tooDeep source :=
  build_halts (T := Within source) (P := fun e => e = tooDeep source) (fun _ hn => congrArg tooDeep hn) depth ho hi h

theorem nodes_failed {s : Scan} {cause : LexicalCause} {pos : Position} (h : s.ending = .failed cause pos) :
    nodes s = (tokenNodes s.tokens).map .item ++ [.halt (.lexical cause pos)] := by
  unfold nodes
  rw [h]
  simp [tokenNodes]

theorem nodes_within (source text : Text) : Items (Within source) (nodes (scan source text)) := by
  obtain ⟨pieces, tail, rest, -, hfollows⟩ := Scan.scanFrom_layout source text .start none [] (Scan.dropped_nil _)
  have htoken : ∀ t ∈ (scan source text).tokens, Within source (.ofToken t) := by
    intro t ht
    have hmem : t ∈ Piece.tokens pieces := hfollows.tokens_eq ▸ ht
    obtain ⟨p, hp, rfl⟩ := List.mem_map.1 hmem
    obtain ⟨before, after, hsplit⟩ := List.append_of_mem hp
    exact congrArg Position.source (hfollows.pos before p after hsplit)
  refine nodes_of_tokens (fun t ht _ => htoken t ht) fun pos hpos => ?_
  rcases hfollows.ending with ⟨-, hfinished⟩ | ⟨cause, -, hfailed⟩
  · obtain rfl := Ending.finished.inj (hpos.symm.trans hfinished)
    rfl
  · cases hpos.symm.trans hfailed

theorem tokenNodes_ne_eof (source text : Text) : ∀ n ∈ tokenNodes (scan source text).tokens, n.kind ≠ .eof := by
  obtain ⟨pieces, tail, rest, hlayout, hfollows⟩ := Scan.scanFrom_layout source text .start none [] (Scan.dropped_nil _)
  intro n hn
  obtain ⟨t, ht, rfl⟩ := List.mem_map.1 hn
  have hmem : t ∈ Piece.tokens pieces := hfollows.tokens_eq ▸ (List.mem_filter.1 ht).1
  obtain ⟨p, hp, rfl⟩ := List.mem_map.1 hmem
  obtain ⟨before, after, hsplit⟩ := List.append_of_mem hp
  have hkind := (hlayout.stands before p after hsplit).kind.2.2
  show Node.kindOf p.token ≠ .eof
  rcases Node.kindOf_cases p.token with hk | hk
  · rwa [hk]
  · have hall : ∀ w ∈ Node.keywords, w.2 ≠ .eof := by decide
    exact hall _ hk

end Tree

/-- A source that is not parsed to its end holds a place where no token can be taken, or brackets or nodes that go
too deep. -/
theorem parse_error {limits : Limits} {source text : Text} {e : Fault}
    (h : (parse limits source text).result = .error e) :
    e = Tree.tooDeep source ∨
      ∃ cause pos, (scan source text).ending = .failed cause pos ∧ e = .lexical cause pos := by
  rcases Tree.halt?_statements (Tree.close_eq_error h) with hdeep | hhalt
  · exact .inl hdeep
  refine Tree.group_halts (T := Tree.Within source) (P := fun e => e = Tree.tooDeep source ∨
    ∃ cause pos, (scan source text).ending = .failed cause pos ∧ e = .lexical cause pos) ?_
    (Tree.nodes_within source text) ?_ hhalt
  · exact fun o ns ho hns e he => .inl (Tree.build_error ho hns (Tree.Built.halt_mem_events he))
  · intro e he
    cases hending : (scan source text).ending with
    | finished pos =>
      rw [Tree.nodes_finished hending] at he
      simp at he
    | failed cause pos =>
      rw [Tree.nodes_failed hending] at he
      exact .inr ⟨cause, pos, rfl, by simpa using he⟩

/-- A source that is scanned to its end has a tree, unless its brackets or its nodes go too deep. -/
theorem parse_finished (limits : Limits) {source text : Text} {pos : Position}
    (h : (scan source text).ending = .finished pos) :
    (parse limits source text).result = .error (Tree.tooDeep source) ∨
      ∃ root, (parse limits source text).result = .ok root := by
  cases hresult : (parse limits source text).result with
  | error e =>
    rcases parse_error hresult with rfl | ⟨cause, pos', hfailed, -⟩
    · exact .inl rfl
    · cases h.symm.trans hfailed
  | ok root => exact .inr ⟨root, rfl⟩

end Kettle
