/-
The reductions that fold operators between operands, commas, assignments and `return`. Each turns the
phrases of its sort, made of single operands, into single operands, and leaves the operators of the
looser sorts where they are.
-/
import Kettle.Proofs.Statement.Fold
import Kettle.Proofs.Statement.Simulation
import Kettle.Statement.Whole

namespace Kettle.Statement

variable {ops : Kind → Bool} {s t u : Statement} {n x op y z : Node}

/-! ## Tiers of operators -/

theorem foldLeft_split (hn : n.resolved = false) (hk : ops n.kind = false) (s' : Statement) :
    ∀ s, foldLeft ops (s ++ n :: s') = foldLeft ops s ++ n :: foldLeft ops s'
  | [] => by simp [foldLeft_cons_of_loose hn]
  | [x] => by
    have haside : Aside ops x (n :: s') := by
      rintro _ _ _ he; cases he; simp [canFold, hk]
    rw [List.singleton_append, foldLeft_cons_of_aside haside, foldLeft_cons_of_loose hn]
    simp
  | [x, op] => by
    have haside : Aside ops x (op :: n :: s') := by
      rintro _ _ _ he; cases he; simp [canFold, hn]
    have hrest := foldLeft_split hn hk s' [op]
    simp only [List.cons_append, List.nil_append, foldLeft_singleton] at hrest
    simp only [List.cons_append, List.nil_append, foldLeft_pair]
    rw [foldLeft_cons_of_aside haside, hrest]
  | x :: op :: y :: rest => by
    simp only [List.cons_append]
    rw [foldLeft_cons_cons_cons, foldLeft_cons_cons_cons]
    split
    · rw [← List.cons_append, foldLeft_split hn hk s' (operation x op y :: rest)]
    · rw [← List.cons_append, ← List.cons_append, foldLeft_split hn hk s' (op :: y :: rest)]
      rfl
termination_by s => s.length

/-- Every node after a fold was there before it, or is an operation of the set. -/
theorem mem_foldLeft : ∀ {s : Statement}, n ∈ foldLeft ops s → n ∈ s ∨ n.resolved = true ∧ ops n.kind = true
  | [], h => by simp at h
  | [_], h => .inl (by simpa using h)
  | [_, _], h => .inl (by simpa using h)
  | x :: op :: y :: rest, h => by
    rw [foldLeft_cons_cons_cons] at h
    split at h
    · rename_i hc
      rcases mem_foldLeft h with h | h
      · rcases List.mem_cons.1 h with rfl | h
        · exact .inr ⟨rfl, (canFold_iff.1 hc).2.1⟩
        · exact .inl (by simp [h])
      · exact .inr h
    · rcases List.mem_cons.1 h with rfl | h
      · exact .inl (by simp)
      · rcases mem_foldLeft h with h | h
        · exact .inl (List.mem_cons_of_mem _ h)
        · exact .inr h
termination_by s => s.length

theorem foldLeft_local (ops : Kind → Bool) : Local (fun _ => True) (fun k => !ops k) (foldLeft ops) where
  nil := foldLeft_nil
  ofNil := fun {s} h => by
    cases s with
    | nil => rfl
    | cons x s => exact absurd h (foldLeft_ne_nil x s)
  split := fun {s n s'} hn hk => foldLeft_split hn (by simpa using hk) s' s
  mem := fun _ hm hn => by
    rcases mem_foldLeft hm with h | ⟨h, -⟩
    · exact h
    · rw [hn] at h; cases h

theorem foldLeftmost?_append (h : foldLeftmost? ops s = some t) (u : Statement) :
    foldLeftmost? ops (s ++ u) = some (t ++ u) := by
  induction s using foldLeftmost?_induct ops generalizing t with
  | here x op y rest hc => cases h; simp [foldLeftmost?, hc]
  | later x op y rest hc ih =>
    obtain ⟨t', ht', rfl⟩ := Option.map_eq_some_iff.1 h
    have := ih ht'
    simp only [List.cons_append] at this ⊢
    rw [foldLeftmost?, if_neg hc, this]
    rfl
  | short => cases h

/-- What stands first is folded first. -/
theorem foldLeft_append (s u : Statement) : foldLeft ops (s ++ u) = foldLeft ops (foldLeft ops s ++ u) := by
  cases hs : foldLeftmost? ops s with
  | none => rw [foldLeft_of_none hs]
  | some t =>
    have hlen := foldLeftmost?_length hs
    rw [foldLeft_of_some hs, foldLeft_of_some (foldLeftmost?_append hs u), foldLeft_append]
termination_by s.length

variable {kinds : List Kind}

/-- A chain that starts with an operation goes on from the chain of its two operands. -/
theorem Chain.unfold (h : Chain kinds Atom s z) (hs : s = operation x op y :: u)
    (hop : op.resolved = false) (hk : op.kind ∈ kinds) (hx : x.resolved = true) (hy : y.resolved = true) :
    Chain kinds Atom (x :: op :: y :: u) z := by
  induction h generalizing u with
  | single h =>
    obtain ⟨rfl, -⟩ := h
    obtain ⟨rfl, rfl⟩ := List.cons.inj hs
    exact .more (s := [x]) (.single ⟨rfl, hx⟩) hop hk ⟨rfl, hy⟩
  | @more s₁ s₂ x' op' y' h₁ hop' hk' hy' ih =>
    -- the operation is the first node of the shorter chain, which is not empty
    obtain ⟨init, last, rfl, -⟩ := h₁.ends Atom.ends
    cases init with
    | nil =>
      obtain ⟨rfl, rfl⟩ := List.cons.inj hs
      exact .more (ih rfl) hop' hk' hy'
    | cons z init =>
      obtain ⟨rfl, rfl⟩ := List.cons.inj hs
      exact .more (s := x :: op :: y :: (init ++ [last])) (ih rfl) hop' hk' hy'

theorem chain_of_foldLeft (hops : ∀ k, ops k = true ↔ k ∈ kinds) (hz : z.resolved = true) :
    ∀ {s : Statement}, foldLeft ops s = [z] → Chain kinds Atom s z
  | [], h => by simp at h
  | [_], h => .single ⟨by simpa using h, hz⟩
  | [_, _], h => by simp at h
  | x :: op :: y :: rest, h => by
    rw [foldLeft_cons_cons_cons] at h
    split at h
    · rename_i hc
      obtain ⟨hop, hk, hx, hy⟩ := canFold_iff.1 hc
      exact (chain_of_foldLeft hops hz h).unfold rfl hop ((hops _).1 hk) hx hy
    · obtain ⟨-, h⟩ := List.cons.inj h
      exact absurd h (foldLeft_ne_nil op _)
termination_by s => s.length

/-- Operators of a tier with operands between them become an operand, and nothing else does. -/
theorem foldLeft_simulates (hops : ∀ k, ops k = true ↔ k ∈ kinds) :
    Simulates (fun _ => True) (foldLeft ops) (Chain kinds Atom) Atom where
  left := Chain.ends Atom.ends
  right := Atom.ends
  iff := fun {s} _ z => by
    constructor
    · intro h
      induction h with
      | single h => obtain ⟨rfl, hz⟩ := h; exact ⟨foldLeft_singleton, hz⟩
      | @more s s' x op y _ hop hk hy ih =>
        obtain ⟨hs, hx⟩ := ih fun _ _ => trivial
        obtain ⟨rfl, hy⟩ := hy
        have hc : canFold ops x op y = true := canFold_iff.2 ⟨hop, (hops _).2 hk, hx, hy⟩
        refine ⟨?_, rfl⟩
        rw [foldLeft_append, hs, List.singleton_append, foldLeft_cons_cons_cons, if_pos hc, foldLeft_singleton]
        rfl
    · exact fun ⟨h, hz⟩ => chain_of_foldLeft hops hz h

/-! ## Comma lists -/

theorem flattenComma_of_not (h : n.isResolved .comma = false ∨ ∀ c ∈ n.children.head?, c.kind ≠ .comma) :
    flattenComma n = n := by
  rw [flattenComma]
  split
  · rfl
  · rename_i head tail hc
    rw [if_neg]
    intro hn
    simp only [Bool.and_eq_true, decide_eq_true_eq] at hn
    rcases h with h | h
    · rw [hn.1] at h; cases h
    · exact h head (by simp [hc]) hn.2

theorem flattenComma_of_loose (h : n.resolved = false) : flattenComma n = n :=
  flattenComma_of_not (.inl (by simp [Node.isResolved, h]))

theorem flattenComma_cons {head : Node} {tail : List Node} (hn : n.isResolved .comma = true)
    (hc : n.children = head :: tail) (hk : head.kind = .comma) :
    flattenComma n = flattenComma (head.into .comma head.text (head.children ++ tail)) := by
  rw [flattenComma]
  split
  · rename_i h; rw [hc] at h; cases h
  · rename_i h
    rw [hc] at h
    obtain ⟨rfl, rfl⟩ := List.cons.inj h
    rw [if_pos (by simp [hn, hk])]

theorem flattenComma_resolved (n : Node) : (flattenComma n).resolved = n.resolved := by
  induction n using flattenComma_induct with
  | leaf => rfl
  | nested n head tail _ h ih =>
    rw [ih]
    simp only [Bool.and_eq_true, decide_eq_true_eq] at h
    exact (Node.isResolved_iff.1 h.1).1.symm
  | flat => rfl

theorem flattenCommas_local (keep : Kind → Bool) : Local (fun _ => True) keep flattenCommas :=
  Local.map (fun _ h => flattenComma_of_loose h) fun n _ h => by rw [flattenComma_resolved, h]

/-- The operands before the comma lists are made. -/
def NoListing (n : Node) : Prop := n.resolved = true → n.kind ≠ .comma

/-- The nested list `z` is, made flat, the list of `xs` at `c`, whatever is added at its end. -/
structure Flattens (z c : Node) (xs : List Node) : Prop where
  comma : z.isResolved .comma = true
  flat : ∀ tail, flattenComma (z.into .comma z.text (z.children ++ tail)) = c.into .comma c.text (xs ++ tail)

theorem Flattens.eq {c : Node} {xs : List Node} (h : Flattens z c xs) :
    flattenComma z = c.into .comma c.text xs := by
  have hz : z.into .comma z.text (z.children ++ []) = z := by
    obtain ⟨hr, hk⟩ := Node.isResolved_iff.1 h.comma
    cases z
    simp_all [Node.into]
  rw [← hz, h.flat, List.append_nil]

theorem Flattens.two (hx : x.kind ≠ .comma) (op y : Node) :
    Flattens (op.into .comma op.text [x, y]) op [x, y] where
  comma := rfl
  flat := fun tail => flattenComma_of_not (.inr fun c hc => by cases hc; exact hx)

theorem Flattens.more {c : Node} {xs : List Node} (h : Flattens x c xs) (op y : Node) :
    Flattens (op.into .comma op.text [x, y]) c (xs ++ [y]) where
  comma := rfl
  flat := fun tail => by
    have hc : ((op.into .comma op.text [x, y]).into .comma op.text ([x, y] ++ tail)).children = x :: (y :: tail) := rfl
    have hk : x.kind = .comma := (Node.isResolved_iff.1 h.comma).2
    refine (flattenComma_cons rfl hc hk).trans ?_
    rw [h.flat]
    simp

theorem elements_of_chain (h : Chain [.comma] Atom s z) (hI : ∀ m ∈ s, NoListing m) :
    Atom s z ∨ ∃ c xs, Elements Atom s c xs ∧ Flattens z c xs := by
  induction h with
  | single h => exact .inl h
  | @more s s' x op y _ hop hk hy ih =>
    have hcomma : op.kind = .comma := by simpa using hk
    have hloose : op.isLoose .comma = true := Node.isLoose_iff.2 ⟨hop, hcomma⟩
    rw [hcomma]
    refine .inr ?_
    rcases ih (forall_left hI) with hx | ⟨c, xs, hxs, hflat⟩
    · have hkind : x.kind ≠ .comma := by
        obtain ⟨rfl, hr⟩ := hx
        exact hI x (by simp) hr
      exact ⟨op, [x, y], .two hx hloose hy, .two hkind op y⟩
    · exact ⟨c, xs ++ [y], .more hxs hloose hy, hflat.more op y⟩

theorem chain_of_elements {c : Node} {xs : List Node} (h : Elements Atom s c xs)
    (hI : ∀ m ∈ s, NoListing m) : ∃ z, Chain [.comma] Atom s z ∧ Flattens z c xs := by
  induction h with
  | @two s s' x c y hs hc hy =>
    obtain ⟨hr, hk⟩ := Node.isLoose_iff.1 hc
    have hkind : x.kind ≠ .comma := by
      obtain ⟨rfl, hx⟩ := hs
      exact hI x (by simp) hx
    have hx : Chain [.comma] Atom s x := .single hs
    have hz := hx.more hr (by simp [hk]) hy
    rw [hk] at hz
    exact ⟨_, hz, .two hkind c y⟩
  | @more s s' first c y xs _ hc hy ih =>
    obtain ⟨hr, hk⟩ := Node.isLoose_iff.1 hc
    obtain ⟨x, hx, hflat⟩ := ih (forall_left hI)
    have hz := Chain.more hx hr (by simp [hk]) hy
    rw [hk] at hz
    exact ⟨_, hz, hflat.more c y⟩

/-- The two reductions that turn comma lists into operands. -/
def listings (s : Statement) : Statement := flattenCommas (foldLeft Tier.listing.has s)

theorem listing_has_iff (k : Kind) : Tier.listing.has k = true ↔ k ∈ [Kind.comma] := by
  cases k <;> decide

theorem listings_local : Local (fun _ => True) (fun k => !Tier.listing.has k) listings :=
  (foldLeft_local _).comp (flattenCommas_local _) fun _ _ _ _ => trivial

theorem listings_eq_singleton (h : listings s = [y]) : ∃ z, foldLeft Tier.listing.has s = [z] ∧ flattenComma z = y := by
  simpa [listings, flattenCommas, List.map_eq_singleton_iff] using h

/-- A comma list of operands becomes an operand, and nothing else does. -/
theorem listings_simulates : Simulates NoListing listings (Listing Atom) Atom where
  left := Listing.ends Atom.ends
  right := Atom.ends
  iff := fun {s} hI t => by
    have hfold := (foldLeft_simulates listing_has_iff).iff (s := s) fun _ _ => trivial
    constructor
    · intro h
      cases h with
      | single h =>
        obtain ⟨rfl, ht⟩ := h
        have hflat : flattenComma t = t :=
          flattenComma_of_not (.inl (by simpa [Node.isResolved, ht] using hI t (by simp) ht))
        exact ⟨by simp [listings, flattenCommas, hflat], ht⟩
      | many h =>
        obtain ⟨z, hz, hflat⟩ := chain_of_elements h hI
        refine ⟨?_, rfl⟩
        rw [listings, ((hfold z).1 hz).1]
        simp [flattenCommas, hflat.eq]
    · rintro ⟨hs, ht⟩
      obtain ⟨z, hz, rfl⟩ := listings_eq_singleton hs
      rw [flattenComma_resolved] at ht
      rcases elements_of_chain ((hfold z).2 ⟨hz, ht⟩) hI with h | ⟨c, xs, h, hflat⟩
      · obtain ⟨rfl, -⟩ := h
        have hflat : flattenComma z = z :=
          flattenComma_of_not (.inl (by simpa [Node.isResolved, ht] using hI z (by simp) ht))
        rw [hflat]
        exact .single ⟨rfl, ht⟩
      · rw [hflat.eq]
        exact .many h

/-! ## Assignments -/

theorem foldRight_split (hn : n.resolved = false) (hk : ops n.kind = false) (s' : Statement) :
    ∀ s, foldRight ops (s ++ n :: s') = foldRight ops s ++ n :: foldRight ops s'
  | [] => by rw [List.nil_append, foldRight_cons, joinRight_of_loose hn, foldRight_nil]; rfl
  | x :: s => by
    rw [List.cons_append, foldRight_cons, foldRight_split hn hk s' s, foldRight_cons]
    -- `x` could reach across `n` only with `n` as its operator or its operand
    match foldRight ops s with
    | [] => cases foldRight ops s' <;> simp [joinRight, canFold, hk]
    | [op] => simp [joinRight, canFold, hn]
    | op :: y :: rest =>
      simp only [List.cons_append, joinRight]
      split <;> rfl

theorem mem_foldRight : ∀ {s : Statement}, n ∈ foldRight ops s → n.resolved = false → n ∈ s
  | [], h, _ => by simp at h
  | x :: s, h, hn => by
    rw [foldRight_cons] at h
    rcases joinRight_cases ops x (foldRight ops s) with ⟨op, y, rest, hs, -, hj⟩ | hj
    · rw [hj] at h
      rcases List.mem_cons.1 h with rfl | h
      · cases hn
      · have hmem : n ∈ foldRight ops s := by rw [hs]; simp [h]
        exact List.mem_cons_of_mem _ (mem_foldRight hmem hn)
    · rw [hj] at h
      rcases List.mem_cons.1 h with rfl | h
      · simp
      · exact List.mem_cons_of_mem _ (mem_foldRight h hn)

theorem foldRight_local (ops : Kind → Bool) : Local (fun _ => True) (fun k => !ops k) (foldRight ops) where
  nil := foldRight_nil
  ofNil := fun {s} h => by
    cases s with
    | nil => rfl
    | cons x s => exact absurd h (foldRight_ne_nil x s)
  split := fun {s n s'} hn hk => foldRight_split hn (by simpa using hk) s' s
  mem := fun _ hm hn => mem_foldRight hm hn

theorem isAssignment_iff (k : Kind) : isAssignment k = true ↔ k ∈ assignKinds := by
  cases k <;> decide

/-- A token stays first only if it was first. -/
theorem foldRight_eq_cons_of_loose (hop : op.resolved = false) (h : foldRight ops s = op :: u) :
    ∃ s', s = op :: s' ∧ foldRight ops s' = u := by
  cases s with
  | nil => simp at h
  | cons x s =>
    rw [foldRight_cons] at h
    rcases joinRight_cases ops x (foldRight ops s) with ⟨op', y, rest, -, -, hj⟩ | hj
    · rw [hj] at h
      obtain ⟨rfl, -⟩ := List.cons.inj h
      cases hop
    · rw [hj] at h
      obtain ⟨rfl, rfl⟩ := List.cons.inj h
      exact ⟨s, rfl, rfl⟩

theorem assigning_of_foldRight : ∀ {s : Statement} {z : Node}, foldRight isAssignment s = [z] →
    z.resolved = true → Assigning operation Atom s z
  | [], z, h, _ => by simp at h
  | x :: s, z, h, hz => by
    rw [foldRight_cons] at h
    rcases joinRight_cases isAssignment x (foldRight isAssignment s) with ⟨op, y, rest, hs, hc, hj⟩ | hj
    · rw [hj] at h
      obtain ⟨rfl, rfl⟩ := List.cons.inj h
      obtain ⟨hop, hk, hx, hy⟩ := canFold_iff.1 hc
      obtain ⟨s', rfl, hs'⟩ := foldRight_eq_cons_of_loose hop hs
      exact .more (s := [x]) ⟨rfl, hx⟩ hop ((isAssignment_iff _).1 hk) (assigning_of_foldRight hs' hy)
    · -- nothing is left behind `x`, so nothing was there
      rw [hj] at h
      obtain ⟨rfl, hnil⟩ := List.cons.inj h
      cases s with
      | nil => exact .single ⟨rfl, hz⟩
      | cons y s => exact absurd hnil (foldRight_ne_nil y s)
termination_by s => s.length

/-- Assignments between operands become an operand, and nothing else does. -/
theorem foldRight_simulates :
    Simulates (fun _ => True) (foldRight isAssignment) (Assigning operation Atom) Atom where
  left := Assigning.ends Atom.ends
  right := Atom.ends
  iff := fun {s} _ z => by
    constructor
    · intro h
      induction h with
      | single h =>
        obtain ⟨rfl, hz⟩ := h
        exact ⟨by simp [foldRight_cons, joinRight], hz⟩
      | @more s s' x op y hs hop hk _ ih =>
        obtain ⟨rfl, hx⟩ := hs
        obtain ⟨hs', hy⟩ := ih fun _ _ => trivial
        have hc : canFold isAssignment x op y = true :=
          canFold_iff.2 ⟨hop, (isAssignment_iff _).2 hk, hx, hy⟩
        refine ⟨?_, rfl⟩
        rw [List.singleton_append, foldRight_cons, foldRight_cons, hs', joinRight_of_loose hop]
        simp [joinRight, hc]
    · rintro ⟨h, hz⟩
      exact assigning_of_foldRight h hz

/-! ## Returns -/

/-- `return` takes the operand after it, stands alone at the end, or stays a token. -/
theorem attachReturn_cases (n : Node) (s : Statement) :
    n.isLoose .ret = true ∧ s = [] ∧ attachReturn n s = [n.into .ret n.text []] ∨
      (∃ x rest, n.isLoose .ret = true ∧ x.resolved = true ∧ s = x :: rest ∧
        attachReturn n s = n.into .ret n.text [x] :: rest) ∨
      attachReturn n s = n :: s := by
  by_cases hn : n.isLoose .ret = true
  · cases s with
    | nil => exact .inl ⟨hn, rfl, by simp [attachReturn, hn]⟩
    | cons x rest =>
      by_cases hx : x.resolved = true
      · exact .inr (.inl ⟨x, rest, hn, hx, rfl, by simp [attachReturn, hn, hx]⟩)
      · exact .inr (.inr (by simp [attachReturn, hn, hx]))
  · exact .inr (.inr (by simp [attachReturn, hn]))

theorem attachReturns_ne_nil (n : Node) (s : Statement) : attachReturns (n :: s) ≠ [] := by
  rw [attachReturns]
  rcases attachReturn_cases n (attachReturns s) with ⟨-, -, h⟩ | ⟨x, rest, -, -, -, h⟩ | h <;> rw [h] <;> simp

theorem attachReturns_eq_nil (h : attachReturns s = []) : s = [] := by
  cases s with
  | nil => rfl
  | cons n s => exact absurd h (attachReturns_ne_nil n s)

theorem returning_of_attachReturns : ∀ {s : Statement} {z : Node}, attachReturns s = [z] →
    z.resolved = true → Returning Atom s z
  | [], z, h, _ => by cases h
  | n :: rest, z, h, hz => by
    rw [attachReturns] at h
    rcases attachReturn_cases n (attachReturns rest) with ⟨hn, hr, hs⟩ | ⟨x, after, hn, hx, hr, hs⟩ | hs
    · obtain rfl := attachReturns_eq_nil hr
      cases hs.symm.trans h
      exact .bare hn
    · rw [hs] at h
      obtain ⟨rfl, rfl⟩ := List.cons.inj h
      exact .operand hn (returning_of_attachReturns hr hx)
    · rw [hs] at h
      obtain ⟨rfl, hnil⟩ := List.cons.inj h
      obtain rfl := attachReturns_eq_nil hnil
      exact .plain ⟨rfl, hz⟩

/-- A statement that is an operand behind any number of `return` becomes an operand, and nothing else
does. -/
theorem returning_iff {z : Node} : Returning Atom s z ↔ attachReturns s = [z] ∧ z.resolved = true := by
  constructor
  · intro h
    induction h with
    | @plain s t h =>
      obtain ⟨rfl, ht⟩ := h
      have hn : t.isLoose .ret = false := by simp [Node.isLoose, ht]
      exact ⟨by simp [attachReturns, attachReturn, hn], ht⟩
    | @bare n hn => exact ⟨by simp [attachReturns, attachReturn, hn], rfl⟩
    | @operand n s t hn _ ih =>
      obtain ⟨hs, ht⟩ := ih
      exact ⟨by simp [attachReturns, attachReturn, hn, hs, ht], rfl⟩
  · rintro ⟨h, hz⟩
    exact returning_of_attachReturns h hz

end Kettle.Statement
