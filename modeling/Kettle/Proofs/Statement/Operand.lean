/-
The reductions that make operands. Function literals, calls and parentheses around one expression turn
each primary into a single operand; the signs before an operand then turn into one operand with it.
Both steps leave all operators between operands where they are.
-/
import Kettle.Proofs.Statement.Simulation
import Mathlib.Data.List.Induction

namespace Kettle.Statement

variable {s s' : Statement} {n m t : Node}

/-! ## Function literals -/

theorem formFunctions_cons_of_not_head (h : isFunctionHead m n = false) (s : Statement) :
    formFunctions (m :: n :: s) = m :: formFunctions (n :: s) := by
  cases s with
  | nil => simp [formFunctions, h]
  | cons b rest => simp [formFunctions, h]

theorem formFunctions_cons (h : n.isLoose .function = false) (s : Statement) :
    formFunctions (n :: s) = n :: formFunctions s := by
  cases s with
  | nil => rfl
  | cons m rest => exact formFunctions_cons_of_not_head (by simp [isFunctionHead, h]) rest

theorem formFunctions_head (h : isFunctionHead m n = true)
    (hs : ∀ b rest, s = b :: rest → b.isResolved .lbrace = false) :
    formFunctions (m :: n :: s) = m.into .function m.text [n] :: formFunctions s := by
  cases s with
  | nil => simp [formFunctions, h]
  | cons b rest => simp [formFunctions, h, hs b rest rfl]

theorem formFunctions_head_body {b : Node} (h : isFunctionHead m n = true) (hb : b.isResolved .lbrace = true)
    (s : Statement) : formFunctions (m :: n :: b :: s) = m.into .function m.text [n, b] :: formFunctions s := by
  simp [formFunctions, h, hb]

theorem isFunctionHead_of_loose (h : n.resolved = false) : isFunctionHead m n = false := by
  simp [isFunctionHead, Node.isResolved, h]

theorem formFunctions_split (hn : n.resolved = false) (hk : n.kind ≠ .function) (s' : Statement) :
    ∀ s, formFunctions (s ++ n :: s') = formFunctions s ++ n :: formFunctions s'
  | [] => formFunctions_cons (by simp [Node.isLoose, hk]) s'
  | [m] => by
    have hrest : formFunctions (n :: s') = n :: formFunctions s' := formFunctions_split hn hk s' []
    rw [List.singleton_append, formFunctions_cons_of_not_head (isFunctionHead_of_loose hn), hrest]
    rfl
  | m :: p :: rest => by
    cases hh : isFunctionHead m p with
    | false =>
      rw [List.cons_append, List.cons_append, formFunctions_cons_of_not_head hh,
        formFunctions_cons_of_not_head hh, ← List.cons_append, formFunctions_split hn hk s' (p :: rest)]
      rfl
    | true =>
      -- whether the function has a body depends on the node behind its parameters, which may be `n`
      cases rest with
      | nil =>
        have hbody : ∀ b r, n :: s' = b :: r → b.isResolved .lbrace = false := by
          rintro b r he; cases he; simp [Node.isResolved, hn]
        have hrest : formFunctions (n :: s') = n :: formFunctions s' := formFunctions_split hn hk s' []
        rw [List.cons_append, List.cons_append, List.nil_append, formFunctions_head hh hbody,
          formFunctions_head hh (by simp), hrest]
        rfl
      | cons b rest =>
        cases hb : b.isResolved .lbrace with
        | true =>
          rw [formFunctions_head_body hh hb]
          simp only [List.cons_append]
          rw [formFunctions_head_body hh hb, formFunctions_split hn hk s' rest]
        | false =>
          have hbody : ∀ b' r r', b :: r' = b' :: r → b'.isResolved .lbrace = false := by
            rintro b' r r' he; cases he; exact hb
          rw [formFunctions_head hh fun b' r => hbody b' r rest]
          simp only [List.cons_append]
          rw [formFunctions_head hh fun b' r => hbody b' r _, ← List.cons_append,
            formFunctions_split hn hk s' (b :: rest)]
  termination_by s => s.length

/-- Every node after the reduction was there before it, or is a function. -/
theorem mem_formFunctions (h : n ∈ formFunctions s) : n ∈ s ∨ n.isResolved .function = true := by
  fun_induction formFunctions s <;> grind [Node.isResolved, Node.into]

theorem formFunctions_local :
    Local (fun _ => True) (fun k => k ≠ .function) formFunctions where
  nil := rfl
  ofNil := fun {s} h => by
    fun_induction formFunctions s <;> simp_all
  split := fun {s n s'} hn hk => formFunctions_split hn (by simpa using hk) s' s
  mem := fun {s n} _ hm hn => by
    rcases mem_formFunctions hm with h | h
    · exact h
    · rw [(Node.isResolved_iff.1 h).1] at hn; cases hn

/-- Where only parentheses are left, there was no function literal. -/
theorem eq_of_formFunctions {gs : Statement} (h : formFunctions s = gs)
    (hg : ∀ g ∈ gs, g.isResolved .lpar = true) : s = gs := by
  subst h
  have hself : formFunctions s = s := by
    fun_induction formFunctions s <;> simp_all [Node.isResolved, Node.into]
  exact hself.symm

theorem formFunctions_groups {gs : Statement} (h : ∀ g ∈ gs, g.isResolved .lpar = true) :
    formFunctions gs = gs := by
  induction gs with
  | nil => rfl
  | cons g gs ih =>
    have hg := Node.isResolved_iff.1 (h g (by simp))
    rw [formFunctions_cons (by simp [Node.isLoose, hg.1]), ih fun g' hg' => h g' (by simp [hg'])]

/-! ## Calls -/

/-- A call of a callee with an argument group. -/
def applied (f args : Node) : Node := f.into .apply "call" [f, args]

theorem isCallee_applied (f args : Node) : isCallee (applied f args) = true := rfl

theorem formCallsAfter_ne_nil (callee : Node) (s : Statement) : formCallsAfter callee s ≠ [] := by
  fun_induction formCallsAfter callee s <;> simp_all

theorem formCallsAfter_of_loose (hn : n.resolved = false) (s : Statement) :
    formCallsAfter n s = n :: formCalls s := by
  cases s with
  | nil => rfl
  | cons m rest => simp [formCallsAfter, formCalls, isCallee, hn]

theorem formCallsAfter_split (hn : n.resolved = false) (s' : Statement) (callee : Node) (s : Statement) :
    formCallsAfter callee (s ++ n :: s') = formCallsAfter callee s ++ n :: formCalls s' := by
  induction s generalizing callee with
  | nil =>
    simp only [List.nil_append, formCallsAfter, Node.isResolved, hn, Bool.false_and]
    rw [formCallsAfter_of_loose hn]
    rfl
  | cons m rest ih =>
    simp only [List.cons_append, formCallsAfter]
    split
    · exact ih _
    · rw [ih]; rfl

theorem mem_formCallsAfter (callee : Node) (s : Statement) (h : n ∈ formCallsAfter callee s) :
    n = callee ∨ n ∈ s ∨ n.isResolved .apply = true := by
  fun_induction formCallsAfter callee s <;> grind [Node.isResolved, Node.into]

theorem mem_formCalls (h : n ∈ formCalls s) : n ∈ s ∨ n.isResolved .apply = true := by
  cases s with
  | nil => cases h
  | cons m rest =>
    rcases mem_formCallsAfter m rest h with rfl | h | h
    · exact .inl (by simp)
    · exact .inl (by simp [h])
    · exact .inr h

theorem formCalls_local (keep : Kind → Bool) : Local (fun _ => True) keep formCalls where
  nil := rfl
  ofNil := fun {s} h => by
    cases s with
    | nil => rfl
    | cons m rest => exact absurd h (formCallsAfter_ne_nil m rest)
  split := fun {s n s'} hn _ => by
    cases s with
    | nil => exact formCallsAfter_of_loose hn s'
    | cons m rest => exact formCallsAfter_split hn s' m rest
  mem := fun {s n} _ hm hn => by
    rcases mem_formCalls hm with h | h
    · exact h
    · rw [(Node.isResolved_iff.1 h).1] at hn; cases hn

theorem formCallsAfter_groups {callee : Node} {gs : Statement} (hc : isCallee callee = true)
    (hg : ∀ g ∈ gs, g.isResolved .lpar = true) : formCallsAfter callee gs = [gs.foldl applied callee] := by
  induction gs generalizing callee with
  | nil => rfl
  | cons g gs ih =>
    simp only [formCallsAfter, hg g (by simp), hc, Bool.and_self, if_true]
    exact ih (isCallee_applied callee g) fun g' hg' => hg g' (by simp [hg'])

/-- A single node is left only of a node with argument groups behind it. -/
theorem formCallsAfter_eq_singleton {callee : Node} (h : formCallsAfter callee s = [t]) :
    (∀ g ∈ s, g.isResolved .lpar = true) ∧ t = s.foldl applied callee ∧
      (s ≠ [] → isCallee callee = true) := by
  induction s generalizing callee with
  | nil =>
    simp only [formCallsAfter, List.cons.injEq, and_true] at h
    exact ⟨by simp, h.symm, by simp⟩
  | cons g gs ih =>
    rw [formCallsAfter] at h
    split at h
    · rename_i hc
      rw [Bool.and_eq_true] at hc
      obtain ⟨hgs, ht, -⟩ := ih h
      refine ⟨?_, ht, fun _ => hc.2⟩
      intro g' hg'
      rcases List.mem_cons.1 hg' with rfl | hg'
      · exact hc.1
      · exact hgs g' hg'
    · simp only [List.cons.injEq] at h
      exact absurd h.2 (formCallsAfter_ne_nil _ _)

/-! ## Primaries -/

theorem isCallee_resolved (h : isCallee n = true) : n.resolved = true := by
  simp only [isCallee, Bool.and_eq_true] at h
  exact h.1

theorem Callee.isCallee {f : Node} (h : Callee s f) : isCallee f = true := by
  cases h with
  | name hn => simp [Statement.isCallee, Node.isResolved_iff.1 hn]
  | group hn => simp [Statement.isCallee, Node.isResolved_iff.1 hn]
  | function => rfl
  | functionBody => rfl

/-- A callee becomes a single node before the argument groups. -/
theorem Callee.formFunctions {f : Node} {gs : Statement} (h : Callee s f)
    (hg : ∀ g ∈ gs, g.isResolved .lpar = true) : formFunctions (s ++ gs) = f :: gs := by
  have hgs := formFunctions_groups hg
  cases h with
  | name hn =>
    rw [List.singleton_append, formFunctions_cons (by simp [Node.isLoose, (Node.isResolved_iff.1 hn).1]), hgs]
  | group hn =>
    rw [List.singleton_append, formFunctions_cons (by simp [Node.isLoose, (Node.isResolved_iff.1 hn).1]), hgs]
  | function hf hp =>
    have hnext : ∀ b rest, gs = b :: rest → b.isResolved .lbrace = false := by
      rintro b rest rfl
      simp [Node.isResolved, (Node.isResolved_iff.1 (hg b (by simp))).2]
    simp only [List.cons_append, List.nil_append]
    rw [formFunctions_head (by simp [isFunctionHead, hf, hp]) hnext, hgs]
  | functionBody hf hp hb =>
    simp only [List.cons_append, List.nil_append]
    rw [formFunctions_head_body (by simp [isFunctionHead, hf, hp]) hb, hgs]

theorem Calls.of_groups {f : Node} {gs : Statement} (h : Callee s f)
    (hg : ∀ g ∈ gs, g.isResolved .lpar = true) : Calls (s ++ gs) (gs.foldl applied f) := by
  induction gs using List.reverseRecOn with
  | nil => rw [List.append_nil]; exact .callee h
  | append_singleton gs g ih =>
    rw [← List.append_assoc, List.foldl_append]
    exact .call (ih fun g' hg' => hg g' (by simp [hg'])) (hg g (by simp))

theorem Calls.groups (h : Calls s t) : ∃ s₀ gs f, Callee s₀ f ∧
    (∀ g ∈ gs, g.isResolved .lpar = true) ∧ s = s₀ ++ gs ∧ t = gs.foldl applied f := by
  induction h with
  | callee h => exact ⟨_, [], _, h, by simp, by simp, rfl⟩
  | @call s f args _ ha ih =>
    obtain ⟨s₀, gs, f, hc, hg, rfl, rfl⟩ := ih
    refine ⟨s₀, gs ++ [args], f, hc, ?_, by simp, by rw [List.foldl_append]; rfl⟩
    intro g hm
    rcases List.mem_append.1 hm with hm | hm
    · exact hg g hm
    · rw [List.mem_singleton.1 hm]; exact ha

theorem Calls.resolved (h : Calls s t) : t.resolved = true := by
  cases h with
  | callee h => exact isCallee_resolved h.isCallee
  | call => rfl

/-- Calls become a single node. -/
theorem Calls.formCalls (h : Calls s t) : formCalls (formFunctions s) = [t] := by
  obtain ⟨s₀, gs, f, hc, hg, rfl, rfl⟩ := h.groups
  rw [hc.formFunctions hg]
  exact formCallsAfter_groups hc.isCallee hg

/-- The operands that a statement starts from: names, parentheses, and leaves and blocks. -/
theorem delivered_operand (h : n.Delivered) (hn : n.resolved = true) :
    n.isResolved .ident = true ∨ n.isResolved .lpar = true ∨ n.kind ∈ leafKinds := by
  cases h with
  | token hr => rw [hn] at hr; cases hr
  | leaf _ hk =>
    cases hkind : n.kind <;> simp_all [Node.isOperand, Kind.isString, Node.isResolved, leafKinds]
  | group _ hk =>
    rcases hk with hk | hk
    · exact .inr (.inl (Node.isResolved_iff.2 ⟨hn, hk⟩))
    · exact .inr (.inr (by rw [hk]; decide))

theorem delivered_callee (h : n.Delivered) (hc : isCallee n = true) : Callee [n] n := by
  have hn := isCallee_resolved hc
  rcases delivered_operand h hn with hk | hk | hk
  · exact .name hk
  · exact .group hk
  · have hkind : n.kind = .ident ∨ n.kind = .apply ∨ n.kind = .function ∨ n.kind = .lpar := by
      simpa [isCallee, hn, or_assoc] using hc
    rcases hkind with hk' | hk' | hk' | hk' <;> rw [hk'] at hk <;> exact absurd hk (by decide)

/-- Where a single operand is left, there was a leaf or a callee with its calls. -/
theorem calls_of_formCalls (hI : ∀ m ∈ s, m.Delivered) (h : formCalls (formFunctions s) = [t])
    (ht : t.resolved = true) : Calls s t ∨ s = [t] ∧ t.kind ∈ leafKinds := by
  obtain ⟨f, gs, hu⟩ : ∃ f gs, formFunctions s = f :: gs := by
    cases hu : formFunctions s with
    | nil => rw [hu] at h; cases h
    | cons f gs => exact ⟨f, gs, rfl⟩
  rw [hu] at h
  -- behind the first node there are only argument groups, so none of them comes from a function literal
  obtain ⟨hgs, rfl, hcall⟩ := formCallsAfter_eq_singleton h
  match s with
  | [] => cases hu
  | [_] =>
    cases hu
    rcases delivered_operand (hI f (by simp)) ht with hk | hk | hk
    · exact .inl (.callee (.name hk))
    · exact .inl (.callee (.group hk))
    · exact .inr ⟨rfl, hk⟩
  | n :: p :: rest =>
    refine .inl ?_
    cases hh : isFunctionHead n p with
    | false =>
      rw [formFunctions_cons_of_not_head hh] at hu
      obtain ⟨rfl, htail⟩ := List.cons.inj hu
      obtain rfl := eq_of_formFunctions htail hgs
      exact Calls.of_groups (delivered_callee (hI n (by simp)) (hcall (by simp))) hgs
    | true =>
      obtain ⟨hf, hp⟩ := Bool.and_eq_true_iff.1 hh
      match rest with
      | [] =>
        cases hu.symm.trans (formFunctions_head hh (by simp))
        exact .callee (.function hf hp)
      | b :: rest =>
        cases hb : b.isResolved .lbrace with
        | true =>
          rw [formFunctions_head_body hh hb] at hu
          obtain ⟨rfl, htail⟩ := List.cons.inj hu
          obtain rfl := eq_of_formFunctions htail hgs
          exact Calls.of_groups (.functionBody hf hp hb) hgs
        | false =>
          rw [formFunctions_head hh (by rintro b' r he; cases he; exact hb)] at hu
          obtain ⟨rfl, htail⟩ := List.cons.inj hu
          obtain rfl := eq_of_formFunctions htail hgs
          exact Calls.of_groups (.function hf hp) hgs

theorem stripGroup_of_encloses {only : Node} (h : n.Encloses only) : stripGroup n = only := by
  obtain ⟨hn, hc, hk⟩ := h
  simp [stripGroup, hc, hn, hk]

theorem stripGroup_of_not_encloses (h : ∀ only, ¬ n.Encloses only) : stripGroup n = n := by
  unfold stripGroup
  split
  · rename_i only hc
    rw [if_neg]
    intro hn
    simp only [Bool.and_eq_true, decide_eq_true_eq] at hn
    exact h only ⟨hn.1, hc, hn.2⟩
  · rfl

theorem stripGroup_of_not_lpar (h : n.isResolved .lpar = false) : stripGroup n = n :=
  stripGroup_of_not_encloses fun _ he => by rw [he.1] at h; cases h

/-- The three reductions that turn primaries into operands. -/
def operands (s : Statement) : Statement := stripGroups (formCalls (formFunctions s))

/-- The expressions in a parenthesis are operands. -/
def HoldsOperands (n : Node) : Prop := n.isResolved .lpar = true → ∀ c ∈ n.children, c.resolved = true

theorem delivered_holdsOperands (h : n.Delivered) : HoldsOperands n := by
  intro hn c hc
  obtain ⟨hr, hk⟩ := Node.isResolved_iff.1 hn
  cases h with
  | token h => rw [hr] at h; cases h
  | leaf _ hk' => rw [hk] at hk'; cases hk'
  | group _ _ hf =>
    have hmem : c ∈ c.preorder := by cases c; simp [Node.preorder]
    exact (hf c hc c hmem).1

theorem operands_local : Local Node.Delivered (fun k => k ≠ .function) operands := by
  have hfc := (formFunctions_local.mono fun n (_ : n.Delivered) => trivial).comp
    (formCalls_local _) fun _ _ _ _ => trivial
  -- taking off a parenthesis gives an operand, because the groups that are delivered hold finished trees
  refine hfc.comp (J := HoldsOperands) (Local.map ?_ ?_) ?_
  · intro n hn
    exact stripGroup_of_not_lpar (by simp [Node.isResolved, hn])
  · intro n hI hn
    by_cases h : ∃ only, n.Encloses only
    · obtain ⟨only, he⟩ := h
      rw [stripGroup_of_encloses he]
      exact hI he.1 only (by rw [he.2.1]; simp)
    · rw [stripGroup_of_not_encloses (by simpa using h)]
      exact hn
  · intro s hI m hm
    rcases mem_formCalls hm with hm | hm
    · rcases mem_formFunctions hm with hm | hm
      · exact delivered_holdsOperands (hI m hm)
      · intro hl
        have := (Node.isResolved_iff.1 hm).2.symm.trans (Node.isResolved_iff.1 hl).2
        cases this
    · intro hl
      have := (Node.isResolved_iff.1 hm).2.symm.trans (Node.isResolved_iff.1 hl).2
      cases this

/-- No operand that is made here is a comma list: a parenthesis around one stays. -/
theorem operands_kind (hI : ∀ m ∈ s, m.Delivered) (h : n ∈ operands s) (hn : n.resolved = true) :
    n.kind ≠ .comma := by
  obtain ⟨m, hm, rfl⟩ := List.mem_map.1 h
  by_cases he : ∃ only, m.Encloses only
  · obtain ⟨only, he⟩ := he
    rw [stripGroup_of_encloses he]
    exact he.2.2
  · rw [stripGroup_of_not_encloses (by simpa using he)] at hn ⊢
    intro hk
    rcases mem_formCalls hm with hm | hm
    · rcases mem_formFunctions hm with hm | hm
      · rcases delivered_operand (hI m hm) hn with h | h | h
        · cases hk.symm.trans (Node.isResolved_iff.1 h).2
        · cases hk.symm.trans (Node.isResolved_iff.1 h).2
        · rw [hk] at h; exact absurd h (by decide)
      · cases hk.symm.trans (Node.isResolved_iff.1 hm).2
    · cases hk.symm.trans (Node.isResolved_iff.1 hm).2

/-- Leaves and calls are all that becomes a single operand without its parenthesis taken off. -/
theorem formCalls_eq_singleton_iff (hI : ∀ m ∈ s, m.Delivered) (ht : t.resolved = true) :
    formCalls (formFunctions s) = [t] ↔ Calls s t ∨ s = [t] ∧ t.kind ∈ leafKinds := by
  constructor
  · exact fun h => calls_of_formCalls hI h ht
  · rintro (h | ⟨rfl, -⟩)
    · exact h.formCalls
    · rfl

theorem Calls.ends (h : Calls s t) : EndsInOperand s := by
  cases h with
  | callee h =>
    cases h with
    | name hn => exact .singleton (Node.isResolved_iff.1 hn).1
    | group hn => exact .singleton (Node.isResolved_iff.1 hn).1
    | function _ hp => exact (EndsInOperand.singleton (Node.isResolved_iff.1 hp).1).append [_]
    | functionBody _ _ hb => exact (EndsInOperand.singleton (Node.isResolved_iff.1 hb).1).append [_, _]
  | call _ ha => exact (EndsInOperand.singleton (Node.isResolved_iff.1 ha).1).append _

theorem Primary.ends (h : Primary s t) : EndsInOperand s := by
  cases h with
  | leaf hn => exact .singleton hn
  | callable h => exact h.ends
  | enclosed h => exact .singleton (Node.isResolved_iff.1 h.1).1

/-- Calls that are a parenthesis are that parenthesis alone. -/
theorem Calls.eq_singleton (h : Calls s t) (ht : t.isResolved .lpar = true) : s = [t] := by
  cases h with
  | callee h =>
    cases h with
    | name => rfl
    | group => rfl
    | function => cases ht
    | functionBody => cases ht
  | call => cases ht

/-- Primaries become operands, and nothing else does. -/
theorem operands_simulates : Simulates Node.Delivered operands Primary Atom where
  left := Primary.ends
  right := Atom.ends
  iff := fun {s} hI t => by
    constructor
    · intro h
      cases h with
      | leaf hn hk =>
        have hl : t.isResolved .lpar = false := by
          cases hk' : t.kind <;> rw [hk'] at hk <;> first | exact absurd hk (by decide) | simp [Node.isResolved, hk']
        refine ⟨?_, hn⟩
        rw [operands, (formCalls_eq_singleton_iff hI hn).2 (.inr ⟨rfl, hk⟩)]
        simp [stripGroups, stripGroup_of_not_lpar hl]
      | callable h ht =>
        refine ⟨?_, h.resolved⟩
        rw [operands, h.formCalls]
        simp [stripGroups, stripGroup_of_not_encloses ht]
      | @enclosed n only h =>
        refine ⟨?_, delivered_holdsOperands (hI n (by simp)) h.1 t (by rw [h.2.1]; simp)⟩
        rw [operands, (Calls.callee (.group h.1)).formCalls]
        simp [stripGroups, stripGroup_of_encloses h]
    · rintro ⟨hs, ht⟩
      obtain ⟨t₀, hs₀, rfl⟩ : ∃ t₀, formCalls (formFunctions s) = [t₀] ∧ stripGroup t₀ = t := by
        simpa [operands, stripGroups, List.map_eq_singleton_iff] using hs
      have ht₀ : t₀.resolved = true := by
        cases hr : t₀.resolved with
        | true => rfl
        | false => rwa [stripGroup_of_not_lpar (by simp [Node.isResolved, hr]), hr] at ht
      have hcalls := (formCalls_eq_singleton_iff hI ht₀).1 hs₀
      -- a parenthesis that was taken off was not called
      by_cases he : ∃ only, t₀.Encloses only
      · obtain ⟨only, he⟩ := he
        have hone : s = [t₀] := hcalls.elim (fun h => h.eq_singleton he.1) And.left
        rw [stripGroup_of_encloses he, hone]
        exact .enclosed he
      · have hnot : ∀ only, ¬ t₀.Encloses only := by simpa using he
        rw [stripGroup_of_not_encloses hnot]
        rcases hcalls with h | ⟨rfl, hk⟩
        · exact .callable h hnot
        · exact .leaf ht₀ hk

/-! ## Signs -/

theorem attachSign_ne_nil (b : Bool) (n : Node) (s : Statement) : attachSign b n s ≠ [] := by
  unfold attachSign
  split
  · simp
  · split
    · split <;> simp
    · simp

/-- An operator folds into an operand, or nothing happens; which, depends on the node after it only. -/
theorem attachSign_cases (b : Bool) (n x : Node) :
    (∃ kind, unary? n.kind = some kind ∧ n.resolved = false ∧ x.resolved = true ∧ b = false ∧
        ∀ s, attachSign b n (x :: s) = n.into kind n.text [x] :: s) ∨
      ∀ s, attachSign b n (x :: s) = n :: x :: s := by
  cases hk : unary? n.kind with
  | none => exact .inr fun s => by simp [attachSign, hk]
  | some kind =>
    by_cases h : (!n.resolved && x.resolved && !b) = true
    · refine .inl ⟨kind, rfl, ?_, ?_, ?_, fun s => ?_⟩
      · simp_all
      · simp_all
      · simp_all
      · simp [attachSign, hk, h]
    · exact .inr fun s => by simp [attachSign, hk, h]

theorem attachSign_of_not_sign {b : Bool} (h : n.resolved = true ∨ b = true ∨ unary? n.kind = none)
    (s : Statement) : attachSign b n s = n :: s := by
  cases s with
  | nil => rfl
  | cons x s =>
    rcases attachSign_cases b n x with ⟨kind, hk, hr, -, hb, -⟩ | hs
    · rcases h with h | h | h
      · rw [hr] at h; cases h
      · rw [hb] at h; cases h
      · rw [hk] at h; cases h
    · exact hs s

theorem attachSigns_ne_nil (b : Bool) (n : Node) (s : Statement) : attachSigns b (n :: s) ≠ [] :=
  attachSign_ne_nil b n _

/-- After an operand nothing is a sign, and a token there divides the statement. -/
theorem attachSigns_split (hn : n.resolved = false) (s' : Statement) (hs : EndsInOperand s) :
    ∀ b, attachSigns b (s ++ n :: s') = attachSigns b s ++ n :: attachSigns false s' := by
  obtain ⟨init, x, rfl, hx⟩ := hs
  induction init with
  | nil =>
    intro b
    simp only [List.nil_append, List.singleton_append, attachSigns, hx, hn]
    rw [attachSign_of_not_sign (.inr (.inl rfl)), attachSign_of_not_sign (.inl hx),
      attachSign_of_not_sign (.inl hx)]
    rfl
  | cons m init ih =>
    intro b
    simp only [List.cons_append, attachSigns]
    rw [ih]
    cases hu : attachSigns m.resolved (init ++ [x]) with
    | nil =>
      cases init with
      | nil => exact absurd hu (attachSigns_ne_nil _ x [])
      | cons y init => exact absurd hu (attachSigns_ne_nil _ y _)
    | cons y u =>
      -- whether `m` takes the operand behind it depends on `y` only, and `y` is the same on both sides
      rcases attachSign_cases b m y with ⟨kind, -, -, -, -, hs⟩ | hs
      · rw [List.cons_append, hs, hs]; rfl
      · rw [List.cons_append, hs, hs]; rfl

/-- A token that is left after an operand stood after an operand, and divided the statement. -/
theorem attachSigns_parts (hn : n.resolved = false) {u' : Statement} :
    ∀ {s u : Statement} (b : Bool), EndsInOperand u → attachSigns b s = u ++ n :: u' →
      ∃ s₁ s₂, s = s₁ ++ n :: s₂ ∧ attachSigns b s₁ = u ∧ attachSigns false s₂ = u'
  | [], u, b, _, h => by simp [attachSigns] at h
  | m :: rest, u, b, hu, h => by
    rw [attachSigns] at h
    obtain ⟨y, u₁, rfl⟩ : ∃ y u₁, u = y :: u₁ := by
      obtain ⟨init, x, rfl, -⟩ := hu
      cases init with
      | nil => exact ⟨x, [], rfl⟩
      | cons y init => exact ⟨y, init ++ [x], rfl⟩
    have hlast : u₁ = [] ∧ y.resolved = true ∨ EndsInOperand u₁ := by
      obtain ⟨init, x, he, hx⟩ := hu
      cases init with
      | nil => cases he; exact .inl ⟨rfl, hx⟩
      | cons z init => cases he; exact .inr ⟨init, x, rfl, hx⟩
    cases hr : attachSigns m.resolved rest with
    | nil =>
      rw [hr] at h
      simp [attachSign] at h
    | cons x r =>
      rw [hr] at h
      rcases attachSign_cases b m x with ⟨kind, -, -, hx, -, hs⟩ | hs
      · -- the sign was folded into the operand `x`, behind which nothing changed
        rw [hs, List.cons_append, List.cons.injEq] at h
        obtain ⟨rfl, rfl⟩ := h
        have hends : EndsInOperand (x :: u₁) := by
          rcases hlast with ⟨rfl, -⟩ | h
          · exact .singleton hx
          · exact h.cons x
        obtain ⟨s₁, s₂, rfl, h₁, h₂⟩ := attachSigns_parts hn (s := rest) m.resolved hends hr
        exact ⟨m :: s₁, s₂, rfl, by rw [attachSigns, h₁, hs], h₂⟩
      · rw [hs, List.cons_append, List.cons.injEq] at h
        obtain ⟨rfl, hxr⟩ := h
        rcases hlast with ⟨rfl, hm⟩ | hends
        · -- `n` stands right after the operand `m`
          rw [List.nil_append] at hxr
          obtain ⟨rfl, rfl⟩ := List.cons.inj hxr
          rw [hm] at hr
          cases rest with
          | nil => cases hr
          | cons n' rest' =>
            rw [attachSigns, attachSign_of_not_sign (.inr (.inl rfl))] at hr
            obtain ⟨rfl, htail⟩ := List.cons.inj hr
            rw [hn] at htail
            exact ⟨[m], rest', rfl, rfl, htail⟩
        · rw [hxr] at hr
          obtain ⟨s₁, s₂, rfl, h₁, h₂⟩ := attachSigns_parts hn (s := rest) m.resolved hends hr
          refine ⟨m :: s₁, s₂, rfl, ?_, h₂⟩
          rw [attachSigns, h₁]
          cases u₁ with
          | nil => rfl
          | cons z u₁ =>
            obtain ⟨rfl, -⟩ := List.cons.inj hxr
            exact hs u₁

/-- Signs leave every token after an operand where it is, and every token that is no sign where it
stands first. -/
theorem attachSigns_passes :
    Passes (fun _ => True) (fun _ => true) (fun k => (unary? k).isNone) (attachSigns false) where
  nil := rfl
  ofNil := fun {s} h => by
    cases s with
    | nil => rfl
    | cons n s => exact absurd h (attachSigns_ne_nil _ n s)
  split := fun hn _ hs => attachSigns_split hn _ hs false
  parts := fun _ hn _ hu h => attachSigns_parts hn false hu h
  first := fun {n s} hn hk => by
    rw [attachSigns, hn, attachSign_of_not_sign (.inr (.inr (by simpa using hk)))]
  ofFirst := fun {s n u} _ hn hk h => by
    cases s with
    | nil => cases h
    | cons m s =>
      rw [attachSigns] at h
      cases hr : attachSigns m.resolved s with
      | nil =>
        rw [hr] at h
        obtain ⟨rfl, rfl⟩ := List.cons.inj h
        rw [hn] at hr
        exact ⟨s, rfl, hr⟩
      | cons x r =>
        rw [hr] at h
        rcases attachSign_cases false m x with ⟨kind, -, -, -, -, hs⟩ | hs
        · rw [hs] at h
          obtain ⟨rfl, -⟩ := List.cons.inj h
          cases hn
        · rw [hs] at h
          obtain ⟨rfl, rfl⟩ := List.cons.inj h
          rw [hn] at hr
          exact ⟨s, rfl, hr⟩

theorem unary?_eq_some {k kind : Kind} (h : unary? k = some kind) :
    k = .not ∧ kind = .not ∨ k = .minus ∧ kind = .neg := by
  cases k <;> cases h <;> simp

/-- Every node after the reduction was there before it, or is an operand with a sign. -/
theorem mem_attachSigns : ∀ {b : Bool} {s : Statement}, n ∈ attachSigns b s →
    n ∈ s ∨ n.resolved = true ∧ (n.kind = .not ∨ n.kind = .neg)
  | _, [], h => by cases h
  | b, m :: rest, h => by
    rw [attachSigns] at h
    have hrest : n ∈ attachSigns m.resolved rest → _ := mem_attachSigns
    cases hr : attachSigns m.resolved rest with
    | nil =>
      rw [hr] at h
      exact .inl (by simp [List.mem_singleton.1 h])
    | cons x r =>
      rw [hr] at h hrest
      rcases attachSign_cases b m x with ⟨kind, hk, -, -, -, hs⟩ | hs
      · rw [hs] at h
        rcases List.mem_cons.1 h with rfl | h
        · exact .inr ⟨rfl, (unary?_eq_some hk).imp And.right And.right⟩
        · exact (hrest (by simp [h])).imp_left (List.mem_cons_of_mem _)
      · rw [hs] at h
        rcases List.mem_cons.1 h with rfl | h
        · exact .inl (by simp)
        · exact (hrest h).imp_left (List.mem_cons_of_mem _)

theorem signed_of_attachSigns : ∀ {s : Statement} {t : Node}, attachSigns false s = [t] →
    t.resolved = true → Signed Atom s t
  | [], t, h, _ => by cases h
  | n :: rest, t, h, ht => by
    rw [attachSigns] at h
    cases hr : attachSigns n.resolved rest with
    | nil =>
      rw [hr] at h
      cases rest with
      | nil => cases h; exact .operand ⟨rfl, ht⟩
      | cons m rest => exact absurd hr (attachSigns_ne_nil _ m rest)
    | cons x r =>
      rw [hr] at h
      rcases attachSign_cases false n x with ⟨kind, hk, hn, hx, -, hs⟩ | hs
      · rw [hs, List.cons.injEq] at h
        obtain ⟨rfl, rfl⟩ := h
        rw [hn] at hr
        have hoperand := signed_of_attachSigns hr hx
        rcases unary?_eq_some hk with ⟨hkind, rfl⟩ | ⟨hkind, rfl⟩
        · exact .not (Node.isLoose_iff.2 ⟨hn, hkind⟩) hoperand
        · exact .minus (Node.isLoose_iff.2 ⟨hn, hkind⟩) hoperand
      · rw [hs] at h
        cases h

/-- An operand with its signs becomes an operand, and nothing else does. -/
theorem attachSigns_simulates :
    Simulates (fun _ => True) (attachSigns false) (Signed Atom) Atom where
  left := Signed.ends Atom.ends
  right := Atom.ends
  iff := fun {s} _ t => by
    constructor
    · intro h
      induction h with
      | operand h => obtain ⟨rfl, ht⟩ := h; exact ⟨rfl, ht⟩
      | not hop _ ih =>
        obtain ⟨hr, hk⟩ := Node.isLoose_iff.1 hop
        obtain ⟨hs, ht⟩ := ih fun _ _ => trivial
        refine ⟨?_, rfl⟩
        rw [attachSigns, hr, hs]
        simp [attachSign, hk, unary?, hr, ht]
      | minus hop _ ih =>
        obtain ⟨hr, hk⟩ := Node.isLoose_iff.1 hop
        obtain ⟨hs, ht⟩ := ih fun _ _ => trivial
        refine ⟨?_, rfl⟩
        rw [attachSigns, hr, hs]
        simp [attachSign, hk, unary?, hr, ht]
    · exact fun ⟨h, ht⟩ => signed_of_attachSigns h ht

end Kettle.Statement
