/-
Reading back what is written. The tree of a source, whatever was complained about, is written as a
source that is parsed without complaints. What comes out is the tree itself, but for positions and for
comma lists that are operands of operators: those come out as groups.
-/
import Kettle.Proofs.Program.Join
import Kettle.Proofs.Statement.Deep
import Kettle.Proofs.Token.Readback
import Kettle.Proofs.Tree.Nesting

namespace Kettle

/-! ## Scanning words -/

namespace Scan

/-- A text of words, each with a blank before it or right after the word before it, where it still ends. -/
inductive Packed : List Text → Text → Prop where
  | nil : Packed [] []
  | blank {ws : List Text} {text : Text} (h : Packed ws text) : Packed ws ((' ' : Rune) :: text)
  | word {w : Text} {ws : List Text} {text : Text} {kind : Kind} (hw : Lexeme.Spells kind w)
      (hcomment : kind.isComment = false) (hends : Lexeme.Ends kind w text) (h : Packed ws text) :
      Packed (w :: ws) (w ++ text)

/-- Packed words are read as tokens with those texts. -/
theorem Packed.readsAs {ws : List Text} {text : Text} (h : Packed ws text) (source : Text) :
    ∃ labels, (∀ last, ReadsAs source last text labels) ∧ labels.map Prod.snd = ws ∧
      ∀ l ∈ labels, Lexeme.Spells l.1 l.2 ∧ l.1.isComment = false := by
  induction h with
  | nil => exact ⟨[], readsAs_nil source, rfl, by simp⟩
  | blank _ ih =>
    obtain ⟨labels, hreads, hlabels⟩ := ih
    exact ⟨labels, fun last => (hreads last).blank, hlabels⟩
  | @word w ws text kind hw hcomment hends _ ih =>
    obtain ⟨labels, hreads, htexts, hlabels⟩ := ih
    refine ⟨(kind, w) :: labels, fun last => .lexeme hw hcomment hends (hreads _), by rw [List.map_cons, htexts], ?_⟩
    exact List.forall_mem_cons.2 ⟨⟨hw, hcomment⟩, hlabels⟩

/-- Packed words are scanned as tokens with those texts. -/
theorem scanFrom_packed (source : Text) {ws : List Text} {text : Text} (h : Packed ws text) (cursor : Cursor)
    (last : Option Kind) : ∃ ts pos,
      scanFrom source cursor last text = ⟨ts, .finished pos⟩ ∧ ts.map Token.text = ws ∧
        ∀ t ∈ ts, Lexeme.Spells t.kind t.text ∧ t.kind.isComment = false := by
  obtain ⟨labels, hreads, rfl, hlabels⟩ := h.readsAs source
  obtain ⟨ts, pos, hscan, rfl⟩ := hreads last cursor
  refine ⟨ts, pos, hscan, ?_, fun t ht => hlabels _ (List.mem_map_of_mem ht)⟩
  rw [List.map_map]
  rfl

/-- Words with blanks between them are packed. -/
theorem packed_join {ws : List Text} (h : ∀ w ∈ ws, ∃ kind : Kind, Lexeme.Spells kind w ∧ kind.isComment = false) :
    Packed ws (Text.join " " ws) := by
  induction ws with
  | nil => exact .nil
  | cons w ws ih =>
    obtain ⟨kind, hw, hcomment⟩ := h w (by simp)
    have hrest : Packed ws (behindFirst ws) := by
      unfold behindFirst
      split
      · rename_i hnil
        rw [hnil]
        exact .nil
      · exact .blank (ih fun w hw => h w (by simp [hw]))
    rw [join_cons]
    exact .word hw hcomment (ends_behindFirst hcomment w ws) hrest

end Scan

/-! ## Trees that differ in positions -/

namespace Node

/-- Words with the same text are the same but for positions. -/
theorem IsWord.relocate_eq {n m : Node} (hn : n.IsWord) (hm : m.IsWord) (h : n.text = m.text) :
    n.relocate .nowhere = m.relocate .nowhere := by
  obtain ⟨⟨k, text, pos⟩, rfl, ht, -⟩ := hn
  obtain ⟨⟨k', text', pos'⟩, rfl, ht', -⟩ := hm
  obtain rfl : text = text' := h
  obtain rfl : k = k' := ht.kind_unique ht'
  rfl

/-- The kind of a word that is no name is the kind that its text spells. -/
theorem IsWord.kind_eq {n : Node} {k : Kind} (hn : n.IsWord) (h : Lexeme.Spells k n.text) (hk : k ≠ .ident) :
    n.kind = k := by
  obtain ⟨t, rfl, ht, -⟩ := hn
  have hkind : t.kind = k := ht.kind_unique h
  simp [ofToken, kindOf, hkind, hk]

/-- The texts of brackets are spelled as brackets are. -/
theorem brackets_spells {k : Kind} {opening closing : Text} (h : writing k = .brackets opening closing) :
    Lexeme.Spells k opening ∧ ∃ c, k.closer? = some c ∧ Lexeme.Spells c closing := by
  rcases brackets_kind h with rfl | rfl
  · obtain ⟨rfl, rfl⟩ := Writing.brackets.inj h
    exact ⟨.single (by decide), .rpar, rfl, .single (by decide)⟩
  · obtain ⟨rfl, rfl⟩ := Writing.brackets.inj h
    exact ⟨.single (by decide), .rbrace, rfl, .single (by decide)⟩

/-- The kind of an opening bracket, by its text. -/
theorem IsWord.kind_of_opening {n : Node} {k : Kind} {closing : Text} (hn : n.IsWord)
    (hk : writing k = .brackets n.text closing) : n.kind = k := by
  obtain ⟨hspells, c, hc, -⟩ := brackets_spells hk
  exact hn.kind_eq hspells (Tree.bracketKinds_facts k (Tree.closer?_brackets hc).1).1

/-- The kind of a closing bracket, by its text. -/
theorem IsWord.kind_of_closing {n : Node} {k : Kind} {opening : Text} (hn : n.IsWord)
    (hk : writing k = .brackets opening n.text) : k.closer? = some n.kind := by
  obtain ⟨c, hc, hspells⟩ := (brackets_spells hk).2
  rw [hc, hn.kind_eq hspells (Tree.bracketKinds_facts c (Tree.closer?_brackets hc).2).1]

/-- No word is the end of a source. -/
theorem IsWord.kind_ne_eof {n : Node} (hn : n.IsWord) : n.kind ≠ .eof := by
  intro hk
  have hspells := hn.spells (by rw [hk]; decide)
  rw [hk] at hspells
  have hsingles : ∀ s ∈ Lexeme.singles, s.2 ≠ .eof := by decide
  have hdoubles : ∀ d ∈ Lexeme.doubles, d.2 ≠ .eof := by decide
  rcases hspells.symbol (by decide) with ⟨r, -, hr⟩ | ⟨r, next, -, hr⟩
  · exact hsingles _ hr rfl
  · exact hdoubles _ hr rfl

end Node

/-! ## Brackets among words -/

namespace Tree

open Node (writing nesting weight)

variable {limits : Limits} {source : Text} {ws : List Text} {s raw p ns : List Node} {n : Node}

/-- Nodes of words, with the texts of the words. -/
structure Nodes (ws : List Text) (raw : List Node) : Prop where
  texts : raw.map Node.text = ws
  words : ∀ n ∈ raw, n.IsWord

theorem Nodes.uncons {w : Text} (h : Nodes (w :: ws) raw) :
    ∃ r raw', raw = r :: raw' ∧ r.IsWord ∧ r.text = w ∧ Nodes ws raw' := by
  obtain ⟨r, raw', rfl, hr, hraw⟩ := List.map_eq_cons_iff.1 h.texts
  exact ⟨r, raw', rfl, h.words r (by simp), hr, hraw, fun n hn => h.words n (by simp [hn])⟩

theorem Nodes.split {ws' : List Text} (h : Nodes (ws ++ ws') raw) :
    ∃ raw₁ raw₂, raw = raw₁ ++ raw₂ ∧ Nodes ws raw₁ ∧ Nodes ws' raw₂ := by
  obtain ⟨raw₁, raw₂, rfl, h₁, h₂⟩ := List.map_eq_append_iff.1 h.texts
  exact ⟨raw₁, raw₂, rfl, ⟨h₁, fun n hn => h.words n (by simp [hn])⟩, h₂, fun n hn => h.words n (by simp [hn])⟩

/-- The nodes of spelled words are well nested: words that are no brackets stay so, and brackets come in pairs. -/
theorem Spelled.wellNested (h : Spelled ws s) : ∀ {raw : List Node}, Nodes ws raw → WellNested raw := by
  induction h with
  | nil =>
    intro raw hraw
    obtain rfl := List.map_eq_nil_iff.1 hraw.texts
    exact .nil
  | @word n ws s hn hk _ ih =>
    intro raw hraw
    obtain ⟨r, raw, rfl, hr, htext, hraw⟩ := hraw.uncons
    have hkind : r.kind = n.kind := by simpa using congrArg Node.kind (hr.relocate_eq hn htext)
    exact .other (hkind ▸ not_bracket hk) (ih hraw)
  | @group n closing _ ws q s _ hk _ _ _ ihinner ih =>
    intro raw hraw
    obtain ⟨r, raw, rfl, hr, hopening, hraw⟩ := hraw.uncons
    obtain ⟨raw₁, raw', rfl, hraw₁, hraw'⟩ := hraw.split
    obtain ⟨r', raw₂, rfl, hr', rfl, hraw₂⟩ := hraw'.uncons
    have hkind : r.kind = n.kind := hr.kind_of_opening (hopening ▸ hk)
    have hpair : r.kind.closer? = some r'.kind := by rw [hkind, hr'.kind_of_closing hk]
    exact .pair hpair (ihinner hraw₁) (ih hraw₂)

/-- An open bracket takes in the nodes of spelled words: brackets among them close where they must. -/
theorem group_inside {build : Node → List Node → Events Node} {opener : Node} {c : Kind} {raw : List Node}
    (ho : opener.kind.closer? = some c) (h : Spelled ws s) (hraw : Nodes ws raw) (depth : Nat) (inner : List Node)
    (hd : 0 < depth) (rest : Events Node) :
    group build (some ⟨opener, depth, inner⟩) (raw.map .item ++ rest) =
      group build (some ⟨opener, depth, raw.reverse ++ inner⟩) rest :=
  (h.wellNested hraw).inside ho (fun n hn => (hraw.words n hn).kind_ne_eof) depth hd inner rest

/-! ## How deep brackets go -/

/-- What words add to the number of open brackets. -/
def level : List Text → Int
  | [] => 0
  | w :: ws => weight w + level ws

theorem level_append (ws ws' : List Text) : level (ws ++ ws') = level ws + level ws' := by
  induction ws with
  | nil => simp [level]
  | cons w ws ih =>
    rw [List.cons_append, level, level, ih]
    omega

theorem nesting_nonneg (ws : List Text) : 0 ≤ nesting ws := by
  cases ws with
  | nil => exact Int.le_refl 0
  | cons w ws => exact Int.le_max_left 0 _

theorem nesting_append (ws ws' : List Text) : nesting (ws ++ ws') = max (nesting ws) (level ws + nesting ws') := by
  induction ws with
  | nil =>
    have := nesting_nonneg ws'
    simp [nesting, level]
    omega
  | cons w ws ih =>
    rw [List.cons_append, nesting, nesting, level, ih]
    omega

/-- A word that is no bracket opens and closes nothing. -/
theorem weight_word (hn : n.IsWord) (hk : n.kind ∉ bracketKinds) : weight n.text = 0 := by
  have hno : ∀ k, k ≠ .ident → k ∈ bracketKinds → ¬ Lexeme.Spells k n.text :=
    fun k hident hmem h => hk (hn.kind_eq h hident ▸ hmem)
  unfold weight
  split_ifs with h h'
  · rcases h with h | h
    · exact absurd (h ▸ .single (by decide)) (hno .lpar (by decide) (by decide))
    · exact absurd (h ▸ .single (by decide)) (hno .lbrace (by decide) (by decide))
  · rcases h' with h | h
    · exact absurd (h ▸ .single (by decide)) (hno .rpar (by decide) (by decide))
    · exact absurd (h ▸ .single (by decide)) (hno .rbrace (by decide) (by decide))
  · rfl

theorem weight_brackets {k : Kind} {opening closing : Text} (h : writing k = .brackets opening closing) :
    weight opening = 1 ∧ weight closing = -1 := by
  rcases Node.brackets_kind h with rfl | rfl
  · obtain ⟨rfl, rfl⟩ := Node.Writing.brackets.inj h
    decide
  · obtain ⟨rfl, rfl⟩ := Node.Writing.brackets.inj h
    decide

/-- Spelled words close every bracket they open. -/
theorem Spelled.level_eq (h : Spelled ws s) : level ws = 0 := by
  induction h with
  | nil => rfl
  | word hn hk _ ih =>
    rw [level, weight_word hn (not_bracket hk)]
    omega
  | group _ hk _ _ _ ihinner ih =>
    obtain ⟨hopening, hclosing⟩ := weight_brackets hk
    rw [level, level_append, level, hopening, hclosing]
    omega

/-! ## Reading spelled words -/

/-- Nodes that are the same but for positions. -/
def Alike (ns ms : List Node) : Prop := ns.map (Node.relocate .nowhere) = ms.map (Node.relocate .nowhere)

theorem Alike.cons {ms : List Node} {m : Node} (h : n.relocate .nowhere = m.relocate .nowhere) (h' : Alike ns ms) :
    Alike (n :: ns) (m :: ms) := by
  unfold Alike at h' ⊢
  rw [List.map_cons, List.map_cons, h, h']

theorem Alike.uncons {ms : List Node} {m : Node} (h : Alike ns (m :: ms)) :
    ∃ n ns', ns = n :: ns' ∧ n.relocate .nowhere = m.relocate .nowhere ∧ Alike ns' ms :=
  List.map_eq_cons_iff.1 h

theorem Alike.split {ms ms' : List Node} (h : Alike ns (ms ++ ms')) :
    ∃ ns₁ ns₂, ns = ns₁ ++ ns₂ ∧ Alike ns₁ ms ∧ Alike ns₂ ms' := by
  unfold Alike at h
  rw [List.map_append] at h
  exact List.map_eq_append_iff.1 h

/-- A node that is the same but for its position ends a statement or not as the other one does. -/
theorem isSeparator_alike {m : Node} (h : n.relocate .nowhere = m.relocate .nowhere) :
    isSeparator n = isSeparator m := by
  have hkind : n.kind = m.kind := by simpa using congrArg Node.kind h
  have hresolved : n.resolved = m.resolved := by simpa using congrArg Node.resolved h
  simp [isSeparator, Node.isLoose, hkind, hresolved]

theorem Alike.inline {ms : List Node} (h : Alike ns ms) (hms : ∀ m ∈ ms, isSeparator m = false) :
    ∀ n ∈ ns, isSeparator n = false := by
  intro n hn
  have hmem : n.relocate .nowhere ∈ ms.map (Node.relocate .nowhere) := h ▸ List.mem_map_of_mem hn
  obtain ⟨m, hm, hnm⟩ := List.mem_map.1 hmem
  rw [← isSeparator_alike hnm, hms m hm]

/-- A statement that the grammar derives is kept, at whatever positions it stands. -/
theorem settle_alike (limits : Limits) (source : Text) {s' : Statement} (hs : ∀ m ∈ s, m.Delivered)
    (hplain : ∀ m ∈ s, m.kind.compound? = none) (h : Statement.Derives s n) (ha : Alike s' s) :
    ∃ n', settle limits source s' = [.item n'] ∧ n'.relocate .nowhere = n.relocate .nowhere := by
  -- what is complained about first hangs on positions, but here there is nothing to complain about
  obtain ⟨hreduce, hresolved⟩ := Statement.check_eq_ok_iff.1 ((Statement.check_reduce_eq_ok_iff hs).2 h)
  have hmoved : (Statement.reduce s').map (Node.relocate .nowhere) = [n.relocate .nowhere] := by
    rw [← Statement.reduce_relocate, show s'.map _ = _ from ha, Statement.reduce_relocate, hreduce]
    rfl
  obtain ⟨n', hreduce', hn'⟩ := List.map_eq_singleton_iff.1 hmoved
  have hresolved' : ∀ m ∈ n'.preorder, m.resolved = true := by
    intro m hm
    have hmem : m.relocate .nowhere ∈ n.bottomUp.map (Node.relocate .nowhere) := by
      rw [← Node.bottomUp_relocate, ← hn', Node.bottomUp_relocate]
      exact List.mem_map_of_mem (Node.mem_bottomUp.2 hm)
    obtain ⟨x, hx, hxm⟩ := List.mem_map.1 hmem
    have hr : x.resolved = m.resolved := by simpa using congrArg Node.resolved hxm
    rw [← hr, hresolved x (Node.mem_bottomUp.1 hx)]
  have hcheck : s'.reduce.check = .ok n' := Statement.check_eq_ok_iff.2 ⟨hreduce', hresolved'⟩
  have hshallow : s'.exhausts limits.nodes = false := by
    rw [← Statement.exhausts_relocate (φ := .nowhere), show s'.map _ = _ from ha, Statement.exhausts_relocate]
    exact Statement.exhausts_of_derives hs hplain h
  exact ⟨n', by rw [settle, hshallow, hcheck]; rfl, hn'⟩

/-- Nodes between separators are one statement. -/
theorem split_inline (hs : ∀ m ∈ s, isSeparator m = false) (hne : s ≠ []) :
    split [] (s.map .item) = [.item s] := by
  have hall := split_others hs [] []
  rw [List.append_nil, List.append_nil, split] at hall
  rw [hall]
  simp [flush, hne]

/-- A statement of its own leaves its tree. -/
theorem statement_alike {s' : Statement} (hs : ∀ m ∈ s, isSeparator m = false) (hd : ∀ m ∈ s, m.Delivered)
    (hplain : ∀ m ∈ s, m.kind.compound? = none) (h : Statement.Derives s n) (ha : Alike s' s) :
    ∃ n', statements limits source (s'.map .item) = [.item n'] ∧ n'.relocate .nowhere = n.relocate .nowhere := by
  obtain ⟨n', hsettle, hn'⟩ := settle_alike limits source hd hplain h ha
  have hne : s' ≠ [] := by
    rintro rfl
    have hnil : settle limits source [] = [.report ⟨.unreduced [], .start []⟩] := by cbv
    cases hnil.symm.trans hsettle
  refine ⟨n', ?_, hn'⟩
  rw [statements, split_inline (ha.inline hs) hne, Event.each, hsettle]
  rfl

/-- Sentences leave the trees of their statements, at whatever positions they stand. -/
theorem statements_alike (limits : Limits) (source : Text) (h : Sentences p ns) (hp : ∀ m ∈ p, m.Delivered)
    (hplain : ∀ m ∈ p, m.kind.compound? = none) : ∀ {p' : List Node}, Alike p' p →
      ∃ ns', statements limits source (p'.map .item) = ns'.map .item ∧ Alike ns' ns := by
  induction h with
  | nil =>
    intro p' ha
    obtain rfl := List.map_eq_nil_iff.1 ha
    exact ⟨[], rfl, rfl⟩
  | last hs h =>
    intro p' ha
    obtain ⟨n', hstatements, hn'⟩ := statement_alike hs hp hplain h ha
    exact ⟨[n'], hstatements, .cons hn' rfl⟩
  | @more s p ns sep n hs h hsep _ ih =>
    intro p' ha
    obtain ⟨s', rest, rfl, has, harest⟩ := ha.split
    obtain ⟨sep', p', rfl, hsep', hap⟩ := harest.uncons
    obtain ⟨n', hfirst, hn'⟩ :=
      statement_alike hs (Statement.forall_left hp) (Statement.forall_left hplain) h has
    obtain ⟨ns', hmore, hns'⟩ := ih (Statement.forall_right hp) (Statement.forall_right hplain) hap
    have hhalt : Event.halt? (statements limits source (s'.map .item)) = none := by
      rw [hfirst]
      rfl
    refine ⟨n' :: ns', ?_, .cons hn' hns'⟩
    rw [List.map_append, List.map_cons,
      statements_append ((isSeparator_alike hsep').trans hsep) hhalt, hfirst, hmore]
    rfl

/-- The nodes of spelled words are grouped to the nodes that the words spell, if brackets go no deeper
than they may: the induction is on how the words are spelled, and the depth goes down with each group. -/
theorem group_spelled (limits : Limits) (h : Spelled ws s) :
    ∀ {raw : List Node}, Nodes ws raw → ∀ depth : Nat, nesting ws ≤ depth → ∀ rest : Events Node,
      ∃ s', group (fun n ns => (build limits depth n ns).events) none (raw.map .item ++ rest) =
        s'.map .item ++ group (fun n ns => (build limits depth n ns).events) none rest ∧ Alike s' s := by
  induction h with
  | nil =>
    intro raw hraw depth _ rest
    obtain rfl := List.map_eq_nil_iff.1 hraw.texts
    exact ⟨[], rfl, rfl⟩
  | @word n ws s hn hk _ ih =>
    intro raw hraw depth hdepth rest
    obtain ⟨r, raw, rfl, hr, htext, hraw⟩ := hraw.uncons
    have hmoved := hr.relocate_eq hn htext
    have hkind : r.kind = n.kind := by simpa using congrArg Node.kind hmoved
    have hopen : r.kind.closer? = none := by
      rw [hkind, Option.eq_none_iff_forall_ne_some]
      exact fun c hc => not_bracket hk (closer?_brackets hc).1
    obtain ⟨s', hgroup, hs'⟩ := ih hraw depth (by rw [nesting, weight_word hn (not_bracket hk)] at hdepth; omega) rest
    refine ⟨r :: s', ?_, .cons hmoved hs'⟩
    rw [List.map_cons, List.cons_append, group, hopen, hgroup]
    rfl
  | @group n closing inner ws q s hn hk hinner hq _ ihinner ih =>
    intro raw hraw depth hdepth rest
    obtain ⟨r, raw, rfl, hr, hopening, hraw⟩ := hraw.uncons
    obtain ⟨raw₁, raw', rfl, hraw₁, hraw'⟩ := hraw.split
    obtain ⟨r', raw₂, rfl, hr', rfl, hraw₂⟩ := hraw'.uncons
    have hkind : r.kind = n.kind := hr.kind_of_opening (hopening ▸ hk)
    have hcloser : r.kind.closer? = some r'.kind := hkind ▸ hr'.kind_of_closing hk
    -- one level of brackets is left for the inside
    obtain ⟨hopen, hclose⟩ := weight_brackets hk
    rw [nesting, nesting_append, nesting, hinner.level_eq, hopen, hclose] at hdepth
    have hinside := nesting_nonneg inner
    obtain ⟨depth, rfl⟩ : ∃ d, depth = d + 1 := ⟨depth - 1, by omega⟩
    obtain ⟨q', hgroup, hq'⟩ := ihinner hraw₁ depth (by omega) []
    obtain ⟨ns', hstatements, hns'⟩ :=
      statements_alike limits r.pos.source hq hinner.delivered hinner.plain hq'
    obtain ⟨s', hrest, hs'⟩ := ih hraw₂ (depth + 1) (by omega) rest
    have hbuild : (build limits (depth + 1) r raw₁).events = [.item (r.into r.kind r.text ns')] := by
      rw [List.append_nil] at hgroup
      rw [build, hgroup, group, List.append_nil, hstatements, close_items]
      rfl
    refine ⟨r.into r.kind r.text ns' :: s', ?_, .cons ?_ hs'⟩
    · have hloose : (r.kind.closer?.isSome && !r.resolved) = true := by
        rw [hr.resolved_eq, hkind]
        rcases Node.brackets_kind hk with hn | hn <;> rw [hn] <;> rfl
      have hother : r'.kind ≠ r.kind := closer?_ne hcloser (by simp [hcloser])
      rw [List.map_cons, List.cons_append, group, if_pos hloose, List.map_append, List.append_assoc, Pending.start,
        group_inside hcloser hinner hraw₁ 1 [] (by decide), List.map_cons, List.cons_append, group, if_neg hother,
        if_pos hcloser.symm, if_pos rfl, hrest, List.append_nil, List.reverse_reverse, hbuild]
      rfl
    · have hchildren : ns'.map (Node.relocate .nowhere) = n.children.map (Node.relocate .nowhere) := hns'
      rw [Node.relocate_into, hchildren, hkind, hopening]
      obtain ⟨kind, text, children, resolved, pos⟩ := n
      obtain rfl : resolved = true := hn
      simp [Node.into, Node.relocate, Node.relocateAll_eq, Position.nowhere]

/-- Spelled words are spelled as tokens are. -/
theorem Spelled.spells (h : Spelled ws s) :
    ∀ w ∈ ws, ∃ kind : Kind, Lexeme.Spells kind w ∧ kind.isComment = false := by
  induction h with
  | nil => simp
  | word hn _ _ ih =>
    obtain ⟨t, rfl, ht, hcomment⟩ := hn
    exact List.forall_mem_cons.2 ⟨⟨t.kind, ht, hcomment⟩, ih⟩
  | @group n _ _ _ _ _ _ hk _ _ _ ihinner ih =>
    obtain ⟨hopening, c, hc, hclosing⟩ := Node.brackets_spells hk
    obtain ⟨hn, hmem⟩ := closer?_brackets hc
    refine List.forall_mem_cons.2 ⟨⟨n.kind, hopening, (bracketKinds_facts _ hn).2⟩, ?_⟩
    refine List.forall_mem_append.2 ⟨ihinner, List.forall_mem_cons.2 ⟨⟨c, hclosing, ?_⟩, ih⟩⟩
    exact (bracketKinds_facts c hmem).2

/-- A source of packed words is parsed without complaints to the trees that the words spell. -/
theorem parse_packed {limits : Limits} {text : Text} (h : Spelled ws p) (hns : Sentences p ns)
    (hdepth : nesting ws ≤ limits.brackets) (hpacked : Scan.Packed ws text) (source : Text) :
    ∃ ns', Alike ns' ns ∧ parse limits source text = ⟨[], .ok ((root source).into .lbrace "\x7b" ns')⟩ := by
  obtain ⟨ts, pos, hscan, htexts, hts⟩ := Scan.scanFrom_packed source hpacked .start none
  have hraw : tokenNodes ts = ts.map Node.ofToken := by
    rw [tokenNodes, List.filter_eq_self.2 fun t ht => by simp [(hts t ht).2]]
  have hnodes : Nodes ws (tokenNodes ts) := by
    refine ⟨by rw [hraw, List.map_map]; exact htexts, fun n hn => ?_⟩
    rw [hraw] at hn
    obtain ⟨t, ht, rfl⟩ := List.mem_map.1 hn
    exact ⟨t, rfl, hts t ht⟩
  obtain ⟨p', hgroup, hp'⟩ := group_spelled limits h hnodes limits.brackets hdepth [.item (.ofToken ⟨.eof, [], pos⟩)]
  obtain ⟨ns', hstatements, hns'⟩ := statements_alike limits source hns h.delivered h.plain hp'
  refine ⟨ns', hns', ?_⟩
  have hsource : sourceEvents limits source text = ns'.map .item := by
    have hend : group (fun n ns => (build limits limits.brackets n ns).events) none [.item (.ofToken ⟨.eof, [], pos⟩)] =
        [.item (.ofToken ⟨.eof, [], pos⟩)] := rfl
    have hhalt : Event.halt? (statements limits source (p'.map .item)) = none := by
      rw [hstatements, Event.halt?_map_item]
    rw [sourceEvents, scan, hscan, nodes_finished rfl, groupAll, hgroup, hend,
      statements_append rfl hhalt, hstatements, show statements limits source [] = [] from rfl, List.append_nil]
  rw [parse_eq, hsource, close_items]
  rfl

/-- A source of spelled words with blanks between them is parsed to the trees that the words spell. -/
theorem parse_spelled {limits : Limits} (h : Spelled ws p) (hns : Sentences p ns)
    (hdepth : nesting ws ≤ limits.brackets) (source : Text) :
    ∃ ns', Alike ns' ns ∧
      parse limits source (Text.join " " ws) = ⟨[], .ok ((root source).into .lbrace "\x7b" ns')⟩ :=
  parse_packed h hns hdepth (Scan.packed_join h.spells) source

end Tree

/-- What is written of the tree of a source is parsed without complaints to that tree, with its comma lists
that are operands in groups. -/
theorem parse_written {limits : Limits} {source text : Text} {t : Node} (h : (parse limits source text).result = .ok t)
    (hdepth : Node.nesting t.sourceWords ≤ limits.brackets) (source' : Text) :
    ∃ t', parse limits source' t.render = ⟨[], .ok t'⟩ ∧ t'.same t.regroup = true := by
  have hkept := parse_kept h
  have hroot : t.kind = .lbrace ∧ t.text = "\x7b" ∧ t.resolved = true := by
    rw [Tree.close_eq_ok h]
    exact ⟨rfl, rfl, rfl⟩
  obtain ⟨p, hp, hsentences⟩ := Tree.sentences_of_readings <| List.forall_mem_map.2 fun c hc =>
    ⟨(hkept c hc).settled, Tree.readable_spelled (hkept c hc).readable⟩
  have hwords : Text.spread (";" : Text) ((t.children.map Node.regroup).map Node.words) = t.sourceWords := by
    rw [← Node.wordsAll_eq, Node.wordsAll_regroup]
    rfl
  rw [hwords] at hp
  obtain ⟨ns', hns', hparse⟩ := Tree.parse_spelled hp hsentences hdepth source'
  refine ⟨_, hparse, ?_⟩
  rw [Node.same_iff]
  obtain ⟨kind, text, children, resolved, pos⟩ := t
  obtain ⟨rfl, rfl, rfl⟩ := hroot
  -- the root is no operator, and so it keeps its children as they are
  have hchildren : Node.regroupAll .lbrace children = children.map Node.regroup := by
    rw [Node.regroupAll_eq]
    exact List.map_congr_left fun c _ => Node.encloseList_eq_self rfl _
  rw [Node.regroup, hchildren, Node.into, Node.relocate, Node.relocate, Node.relocateAll_eq, Node.relocateAll_eq,
    show ns'.map _ = _ from hns']
  rfl

/-- A source that is scanned to its end, and whose brackets do not go too deep, has a tree. If the brackets
of what is written of that tree do not go too deep either, parsing it gives the tree again, without complaints,
but for positions and for comma lists that are operands of operators, which come out in groups. -/
theorem parse_render {limits : Limits} {source text : Text} {pos : Position}
    (hscan : (scan source text).ending = .finished pos)
    (hlimit : (parse limits source text).result ≠ .error (Tree.tooDeep source)) (source' : Text) :
    ∃ t, (parse limits source text).result = .ok t ∧
      (Node.nesting t.sourceWords ≤ limits.brackets →
        (parse limits source' t.render).complaints = [] ∧
          ∃ t', (parse limits source' t.render).result = .ok t' ∧ t'.same t.regroup = true ∧
            (t.NoListOperand → t'.same t = true)) := by
  cases h : (parse limits source text).result with
  | error e =>
    rcases parse_error h with rfl | ⟨cause, pos', hfailed, -⟩
    · exact absurd h hlimit
    · cases hscan.symm.trans hfailed
  | ok t =>
    refine ⟨t, rfl, fun hdepth => ?_⟩
    obtain ⟨t', hparse, hsame⟩ := parse_written h hdepth source'
    rw [hparse]
    refine ⟨rfl, t', rfl, hsame, fun hlists => ?_⟩
    rwa [Node.regroup_eq_self t hlists] at hsame

/-- A compound assignment with a stray bracket behind it: the assignment is kept and read back. -/
theorem parse_render_stray : ∃ t, (parse .standard [] "x += 1; )").result = .ok t ∧
    (parse .standard [] "x += 1; )").complaints ≠ [] ∧ (parse .standard [] t.render).complaints = [] ∧
      ∃ t', (parse .standard [] t.render).result = .ok t' ∧ t'.same t = true := by
  let place (column : Nat) : Position := ⟨1, column, []⟩
  let x : Node := ⟨.ident, "x", [], true, place 1⟩
  let one : Node := ⟨.number, "1", [], true, place 6⟩
  let sum : Node := ⟨.plus, "+", [x, one], true, place 3⟩
  let t : Node := (Tree.root []).into .lbrace "\x7b" [⟨.assign, "=", [x, sum], true, place 3⟩]
  have hscan : (scan [] "x += 1; )").ending = .finished (place 10) := by decide +kernel
  have hparse : (parse .standard [] "x += 1; )").result = .ok t := by decide +kernel
  have hcomplaint : (parse .standard [] "x += 1; )").complaints.length = 1 := by decide +kernel
  obtain ⟨t₁, ht₁, hrender⟩ := @parse_render .standard _ _ _ hscan (by simp [hparse]) []
  obtain rfl : t = t₁ := Except.ok.inj (hparse.symm.trans ht₁)
  obtain ⟨hcomplaints, t', ht', -, hsame⟩ := hrender (by decide)
  exact ⟨t, hparse, by simp [← List.length_pos_iff, hcomplaint], hcomplaints, t', ht', hsame (by decide)⟩

/-- Not every tree is read back as it is: compound assignment makes an operand of a comma list, and the
parentheses that the list is written in are read as a group. -/
theorem parse_render_list : (∃ pos, (scan [] "x += 1, 2").ending = .finished pos) ∧
    ∃ t, (parse .standard [] "x += 1, 2").result = .ok t ∧ Node.nesting t.sourceWords ≤ Limits.standard.brackets ∧
      t.render = "x = ( x + ( 1 , 2 ) )" ∧
      ∃ t', (parse .standard [] t.render).result = .ok t' ∧ t'.same t = false := by
  let place (column : Nat) : Position := ⟨1, column, []⟩
  let leaf (kind : Kind) (text : Text) (column : Nat) : Node := ⟨kind, text, [], true, place column⟩
  let pair : Node := ⟨.comma, ",", [leaf .number "1" 6, leaf .number "2" 9], true, place 7⟩
  let sum : Node := ⟨.plus, "+", [leaf .ident "x" 1, pair], true, place 3⟩
  let t : Node := (Tree.root []).into .lbrace "\x7b" [⟨.assign, "=", [leaf .ident "x" 1, sum], true, place 3⟩]
  let pair' : Node := ⟨.comma, ",", [leaf .number "1" 13, leaf .number "2" 17], true, place 15⟩
  let group : Node := ⟨.lpar, "(", [pair'], true, place 11⟩
  let sum' : Node := ⟨.plus, "+", [leaf .ident "x" 7, group], true, place 9⟩
  let t' : Node := (Tree.root []).into .lbrace "\x7b" [⟨.assign, "=", [leaf .ident "x" 1, sum'], true, place 3⟩]
  have hscan : (scan [] "x += 1, 2").ending = .finished (place 10) := by decide +kernel
  have hparse : (parse .standard [] "x += 1, 2").result = .ok t := by decide +kernel
  have hparse' : (parse .standard [] t.render).result = .ok t' := by decide +kernel
  exact ⟨⟨_, hscan⟩, t, hparse, by decide, by decide, t', hparse', by decide⟩

end Kettle
