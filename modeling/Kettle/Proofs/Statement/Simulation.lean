/-
How a step of the reduction carries over from operands to whole statements. A step that leaves the
operators of the looser sorts where they are works on the parts between them (`Passes`). So if it
turns the phrases of one sort into those of another one with the same trees (`Simulates`), it does so
for all looser sorts that are made of them, up to whole statements.
-/
import Kettle.Proofs.Statement.Grammar

namespace Kettle.Statement

variable {I J : Node → Prop} {f g : Statement → Statement} {P Q : Phrases}
variable {joint front keep : Kind → Bool}

/-! ## Steps that work between operators -/

/-- The last node of a statement is an operand. -/
def EndsInOperand (s : Statement) : Prop := ∃ init x, s = init ++ [x] ∧ x.resolved = true

theorem EndsInOperand.singleton {x : Node} (h : x.resolved = true) : EndsInOperand [x] := ⟨[], x, rfl, h⟩

theorem EndsInOperand.append {s' : Statement} (h : EndsInOperand s') (s : Statement) :
    EndsInOperand (s ++ s') := by
  obtain ⟨init, x, rfl, hx⟩ := h
  exact ⟨s ++ init, x, by simp, hx⟩

theorem EndsInOperand.cons {s : Statement} (h : EndsInOperand s) (n : Node) : EndsInOperand (n :: s) :=
  h.append [n]

theorem EndsInOperand.behind {s' : Statement} (h : EndsInOperand s') (s : Statement) (n : Node) :
    EndsInOperand (s ++ n :: s') := (h.cons n).append s

/-- A step that leaves waiting tokens of the kinds `joint` where they stand after an operand, and of
the kinds `front` where they stand first, and works on what is between them. -/
structure Passes (I : Node → Prop) (joint front : Kind → Bool) (f : Statement → Statement) : Prop where
  nil : f [] = []
  ofNil : ∀ {s}, f s = [] → s = []
  split : ∀ {s n s'}, n.resolved = false → joint n.kind = true → EndsInOperand s →
    f (s ++ n :: s') = f s ++ n :: f s'
  parts : ∀ {s u n u'}, (∀ m ∈ s, I m) → n.resolved = false → joint n.kind = true → EndsInOperand u →
    f s = u ++ n :: u' → ∃ s₁ s₂, s = s₁ ++ n :: s₂ ∧ f s₁ = u ∧ f s₂ = u'
  first : ∀ {n s}, n.resolved = false → front n.kind = true → f (n :: s) = n :: f s
  ofFirst : ∀ {s n u}, (∀ m ∈ s, I m) → n.resolved = false → front n.kind = true → f s = n :: u →
    ∃ s', s = n :: s' ∧ f s' = u

/-- A step that leaves all waiting tokens of some kinds where they are, and makes no new tokens. -/
structure Local (I : Node → Prop) (keep : Kind → Bool) (f : Statement → Statement) : Prop where
  nil : f [] = []
  ofNil : ∀ {s}, f s = [] → s = []
  split : ∀ {s n s'}, n.resolved = false → keep n.kind = true → f (s ++ n :: s') = f s ++ n :: f s'
  mem : ∀ {s n}, (∀ m ∈ s, I m) → n ∈ f s → n.resolved = false → n ∈ s

/-- A token that is left comes from the same token, and what stands around it from what stood around
that one. -/
theorem Local.parts (hf : Local I keep f) {s u u' : Statement} {n : Node} (hI : ∀ m ∈ s, I m)
    (hn : n.resolved = false) (hk : keep n.kind = true) (h : f s = u ++ n :: u') :
    ∃ s₁ s₂, s = s₁ ++ n :: s₂ ∧ f s₁ = u ∧ f s₂ = u' := by
  have hmem : n ∈ s := hf.mem hI (by rw [h]; simp) hn
  obtain ⟨s₁, s₂, hs, hfresh⟩ := List.eq_append_cons_of_mem hmem
  have hlen : s₂.length < s.length := by rw [hs]; simp; omega
  have hI₁ : ∀ m ∈ s₁, I m := fun m hm => hI m (by simp [hs, hm])
  have hI₂ : ∀ m ∈ s₂, I m := fun m hm => hI m (by simp [hs, hm])
  rw [hs, hf.split hn hk] at h
  -- `n` is the first of its sort in `s`, so it does not occur before its place in `f s`
  rcases List.append_eq_append_iff.1 h with ⟨a, rfl, ha⟩ | ⟨a, ha, ha'⟩
  · cases a with
    | nil =>
      simp only [List.nil_append, List.cons.injEq, true_and] at ha
      exact ⟨s₁, s₂, hs, by simp, ha⟩
    | cons c a =>
      simp only [List.cons_append, List.cons.injEq] at ha
      obtain ⟨rfl, ha⟩ := ha
      obtain ⟨s₃, s₄, rfl, rfl, rfl⟩ := hf.parts hI₂ hn hk ha
      exact ⟨s₁ ++ n :: s₃, s₄, by simp [hs], hf.split hn hk, rfl⟩
  · cases a with
    | nil =>
      simp only [List.nil_append, List.cons.injEq, true_and] at ha'
      exact ⟨s₁, s₂, hs, by simpa using ha, ha'.symm⟩
    | cons c a =>
      obtain ⟨rfl, -⟩ := List.cons.inj ha'
      exact absurd (hf.mem hI₁ (by rw [ha]; simp) hn) hfresh
termination_by s.length

theorem Local.passes (hf : Local I keep f) : Passes I keep keep f where
  nil := hf.nil
  ofNil := hf.ofNil
  split := fun hn hk _ => hf.split hn hk
  parts := fun hI hn hk _ h => hf.parts hI hn hk h
  first := fun {n s} hn hk => by
    have hsplit : f ([] ++ n :: s) = f [] ++ n :: f s := hf.split hn hk
    rwa [hf.nil] at hsplit
  ofFirst := fun {s n u} hI hn hk h => by
    obtain ⟨s₁, s₂, rfl, h₁, h₂⟩ := hf.parts (u := []) hI hn hk h
    obtain rfl := hf.ofNil h₁
    exact ⟨s₂, rfl, h₂⟩

/-- One such step after another. -/
theorem Local.comp (hf : Local I keep f) (hg : Local J keep g)
    (hIJ : ∀ s, (∀ m ∈ s, I m) → ∀ m ∈ f s, J m) : Local I keep fun s => g (f s) where
  nil := by rw [hf.nil, hg.nil]
  ofNil := fun h => hf.ofNil (hg.ofNil h)
  split := fun hn hk => by rw [hf.split hn hk, hg.split hn hk]
  mem := fun hI hm hn => hf.mem hI (hg.mem (hIJ _ hI) hm hn) hn

theorem Local.mono (hf : Local I keep f) (h : ∀ n, J n → I n) : Local J keep f where
  nil := hf.nil
  ofNil := hf.ofNil
  split := hf.split
  mem := fun hJ => hf.mem fun m hm => h m (hJ m hm)

theorem Local.restrict {keep' : Kind → Bool} (hf : Local I keep f)
    (h : ∀ k, keep' k = true → keep k = true) : Local I keep' f where
  nil := hf.nil
  ofNil := hf.ofNil
  split := fun hn hk => hf.split hn (h _ hk)
  mem := hf.mem

/-- A step that works on each node by itself. -/
theorem Local.map {e : Node → Node} (h : ∀ n, n.resolved = false → e n = n)
    (h' : ∀ n, I n → n.resolved = true → (e n).resolved = true) : Local I keep (List.map e) where
  nil := rfl
  ofNil := List.map_eq_nil_iff.1
  split := fun {s n s'} hn _ => by simp [h n hn]
  mem := fun {s n} hI hm hn => by
    obtain ⟨m, hms, rfl⟩ := List.mem_map.1 hm
    cases hr : m.resolved with
    | false => rwa [h m hr]
    | true => rw [h' m (hI m hms) hr] at hn; cases hn

/-! ## Sorts of phrases that correspond -/

/-- A single operand, which stands for itself. -/
def Atom : Phrases := fun s t => s = [t] ∧ t.resolved = true

theorem Atom.ends {s : Statement} {t : Node} (h : Atom s t) : EndsInOperand s := by
  obtain ⟨rfl, ht⟩ := h
  exact .singleton ht

/-- The step `f` turns the phrases `P` into the phrases `Q` with the same trees, and nothing else
becomes a phrase of `Q`. -/
structure Simulates (I : Node → Prop) (f : Statement → Statement) (P Q : Phrases) : Prop where
  left : ∀ {s t}, P s t → EndsInOperand s
  right : ∀ {s t}, Q s t → EndsInOperand s
  iff : ∀ {s}, (∀ m ∈ s, I m) → ∀ t, P s t ↔ Q (f s) t

/-- One such step after another. -/
theorem Simulates.trans {R : Phrases} (h : Simulates I f P Q) (h' : Simulates J g Q R)
    (hIJ : ∀ s, (∀ m ∈ s, I m) → ∀ m ∈ f s, J m) : Simulates I (fun s => g (f s)) P R where
  left := h.left
  right := h'.right
  iff := fun hI t => (h.iff hI t).trans (h'.iff (hIJ _ hI) t)

theorem Signed.ends (h : ∀ {s t}, P s t → EndsInOperand s) {s : Statement} {t : Node}
    (hs : Signed P s t) : EndsInOperand s := by
  induction hs with
  | operand hs => exact h hs
  | not _ _ ih => exact ih.cons _
  | minus _ _ ih => exact ih.cons _

theorem Chain.ends {ops : List Kind} (h : ∀ {s t}, P s t → EndsInOperand s) {s : Statement} {t : Node}
    (hs : Chain ops P s t) : EndsInOperand s := by
  cases hs with
  | single hs => exact h hs
  | more _ _ _ hy => exact (h hy).behind _ _

theorem Elements.ends (h : ∀ {s t}, P s t → EndsInOperand s) {s : Statement} {c : Node}
    {xs : List Node} (hs : Elements P s c xs) : EndsInOperand s := by
  cases hs with
  | two _ _ hy => exact (h hy).behind _ _
  | more _ _ hy => exact (h hy).behind _ _

theorem Listing.ends (h : ∀ {s t}, P s t → EndsInOperand s) {s : Statement} {t : Node}
    (hs : Listing P s t) : EndsInOperand s := by
  cases hs with
  | single hs => exact h hs
  | many hs => exact hs.ends h

theorem Assigning.ends {form : Node → Node → Node → Node} (h : ∀ {s t}, P s t → EndsInOperand s)
    {s : Statement} {t : Node} (hs : Assigning form P s t) : EndsInOperand s := by
  induction hs with
  | single hs => exact h hs
  | more _ _ _ _ ih => exact ih.behind _ _

theorem forall_left {s s' : Statement} {n : Node} (h : ∀ m ∈ s ++ n :: s', I m) : ∀ m ∈ s, I m :=
  fun m hm => h m (by simp [hm])

theorem forall_right {s s' : Statement} {n : Node} (h : ∀ m ∈ s ++ n :: s', I m) : ∀ m ∈ s', I m :=
  fun m hm => h m (by simp [hm])

/-! ## From a sort to the sorts made of it -/

theorem Simulates.signed (h : Simulates I f P Q) (hf : Passes I joint front f)
    (hnot : front .not = true) (hminus : front .minus = true) :
    Simulates I f (Signed P) (Signed Q) where
  left := Signed.ends h.left
  right := Signed.ends h.right
  iff := fun {s} hI t => by
    constructor
    · intro hs
      induction hs with
      | operand hs => exact .operand ((h.iff hI _).1 hs)
      | @not op s t hop _ ih =>
        obtain ⟨hr, hk⟩ := Node.isLoose_iff.1 hop
        rw [hf.first hr (by rw [hk]; exact hnot)]
        exact .not hop (ih fun m hm => hI m (by simp [hm]))
      | @minus op s t hop _ ih =>
        obtain ⟨hr, hk⟩ := Node.isLoose_iff.1 hop
        rw [hf.first hr (by rw [hk]; exact hminus)]
        exact .minus hop (ih fun m hm => hI m (by simp [hm]))
    · intro hs
      generalize hu : f s = u at hs
      induction hs generalizing s with
      | operand hs => subst hu; exact .operand ((h.iff hI _).2 hs)
      | not hop _ ih =>
        obtain ⟨hr, hk⟩ := Node.isLoose_iff.1 hop
        obtain ⟨s', rfl, hs'⟩ := hf.ofFirst hI hr (by rw [hk]; exact hnot) hu
        exact .not hop (ih (fun m hm => hI m (by simp [hm])) hs')
      | minus hop _ ih =>
        obtain ⟨hr, hk⟩ := Node.isLoose_iff.1 hop
        obtain ⟨s', rfl, hs'⟩ := hf.ofFirst hI hr (by rw [hk]; exact hminus) hu
        exact .minus hop (ih (fun m hm => hI m (by simp [hm])) hs')

theorem Simulates.chain (h : Simulates I f P Q) (hf : Passes I joint front f) (ops : List Kind)
    (hops : ∀ k ∈ ops, joint k = true) : Simulates I f (Chain ops P) (Chain ops Q) where
  left := Chain.ends h.left
  right := Chain.ends h.right
  iff := fun {s} hI t => by
    constructor
    · intro hs
      induction hs with
      | single hs => exact .single ((h.iff hI _).1 hs)
      | more hs hop hk hy ih =>
        rw [hf.split hop (hops _ hk) (hs.ends h.left)]
        exact .more (ih (forall_left hI)) hop hk ((h.iff (forall_right hI) _).1 hy)
    · -- back from `f s`: every operator in it divides `s` as well
      intro hs
      generalize hu : f s = u at hs
      induction hs generalizing s with
      | single hs => subst hu; exact .single ((h.iff hI _).2 hs)
      | more hs hop hk hy ih =>
        obtain ⟨s₁, s₂, rfl, h₁, rfl⟩ := hf.parts hI hop (hops _ hk) (hs.ends h.right) hu
        exact .more (ih (forall_left hI) h₁) hop hk ((h.iff (forall_right hI) _).2 hy)

theorem Simulates.elements (h : Simulates I f P Q) (hf : Passes I joint front f)
    (hcomma : joint .comma = true) {s : Statement} (hI : ∀ m ∈ s, I m) (c : Node) (xs : List Node) :
    Elements P s c xs ↔ Elements Q (f s) c xs := by
  constructor
  · intro hs
    induction hs with
    | two hs hc hy =>
      obtain ⟨hr, hk⟩ := Node.isLoose_iff.1 hc
      rw [hf.split hr (by rw [hk]; exact hcomma) (h.left hs)]
      exact .two ((h.iff (forall_left hI) _).1 hs) hc ((h.iff (forall_right hI) _).1 hy)
    | more hs hc hy ih =>
      obtain ⟨hr, hk⟩ := Node.isLoose_iff.1 hc
      rw [hf.split hr (by rw [hk]; exact hcomma) (hs.ends h.left)]
      exact .more (ih (forall_left hI)) hc ((h.iff (forall_right hI) _).1 hy)
  · intro hs
    generalize hu : f s = u at hs
    induction hs generalizing s with
    | two hs hc hy =>
      obtain ⟨hr, hk⟩ := Node.isLoose_iff.1 hc
      obtain ⟨s₁, s₂, rfl, rfl, rfl⟩ := hf.parts hI hr (by rw [hk]; exact hcomma) (h.right hs) hu
      exact .two ((h.iff (forall_left hI) _).2 hs) hc ((h.iff (forall_right hI) _).2 hy)
    | more hs hc hy ih =>
      obtain ⟨hr, hk⟩ := Node.isLoose_iff.1 hc
      obtain ⟨s₁, s₂, rfl, h₁, rfl⟩ := hf.parts hI hr (by rw [hk]; exact hcomma) (hs.ends h.right) hu
      exact .more (ih (forall_left hI) h₁) hc ((h.iff (forall_right hI) _).2 hy)

theorem Simulates.listing (h : Simulates I f P Q) (hf : Passes I joint front f)
    (hcomma : joint .comma = true) : Simulates I f (Listing P) (Listing Q) where
  left := Listing.ends h.left
  right := Listing.ends h.right
  iff := fun {s} hI t => by
    constructor
    · rintro (hs | hs)
      · exact .single ((h.iff hI _).1 hs)
      · exact .many ((h.elements hf hcomma hI _ _).1 hs)
    · intro hs
      generalize hu : f s = u at hs
      cases hs with
      | single hs => subst hu; exact .single ((h.iff hI _).2 hs)
      | many hs => subst hu; exact .many ((h.elements hf hcomma hI _ _).2 hs)

theorem Simulates.assigning (h : Simulates I f P Q) (hf : Passes I joint front f)
    (hops : ∀ k ∈ assignKinds, joint k = true) (form : Node → Node → Node → Node) :
    Simulates I f (Assigning form P) (Assigning form Q) where
  left := Assigning.ends h.left
  right := Assigning.ends h.right
  iff := fun {s} hI t => by
    constructor
    · intro hs
      induction hs with
      | single hs => exact .single ((h.iff hI _).1 hs)
      | more hs hop hk _ ih =>
        rw [hf.split hop (hops _ hk) (h.left hs)]
        exact .more ((h.iff (forall_left hI) _).1 hs) hop hk (ih (forall_right hI))
    · intro hs
      generalize hu : f s = u at hs
      induction hs generalizing s with
      | single hs => subst hu; exact .single ((h.iff hI _).2 hs)
      | more hs hop hk _ ih =>
        obtain ⟨s₁, s₂, rfl, rfl, h₂⟩ := hf.parts hI hop (hops _ hk) (h.right hs) hu
        exact .more ((h.iff (forall_left hI) _).2 hs) hop hk (ih (forall_right hI) h₂)

/-- A step that turns phrases into phrases does so behind any number of `return`. -/
theorem Simulates.returning (h : Simulates I f P Q) (hf : Passes I joint front f)
    (hret : front .ret = true) {s : Statement} (hI : ∀ m ∈ s, I m) (t : Node) :
    Returning P s t ↔ Returning Q (f s) t := by
  constructor
  · intro hs
    induction hs with
    | plain hs => exact .plain ((h.iff hI _).1 hs)
    | bare hn =>
      obtain ⟨hr, hk⟩ := Node.isLoose_iff.1 hn
      rw [hf.first hr (by rw [hk]; exact hret), hf.nil]
      exact .bare hn
    | operand hn _ ih =>
      obtain ⟨hr, hk⟩ := Node.isLoose_iff.1 hn
      rw [hf.first hr (by rw [hk]; exact hret)]
      exact .operand hn (ih fun m hm => hI m (by simp [hm]))
  · intro hs
    generalize hu : f s = u at hs
    induction hs generalizing s with
    | plain hs => subst hu; exact .plain ((h.iff hI _).2 hs)
    | bare hn =>
      obtain ⟨hr, hk⟩ := Node.isLoose_iff.1 hn
      obtain ⟨s', rfl, hs'⟩ := hf.ofFirst hI hr (by rw [hk]; exact hret) hu
      obtain rfl := hf.ofNil hs'
      exact .bare hn
    | operand hn _ ih =>
      obtain ⟨hr, hk⟩ := Node.isLoose_iff.1 hn
      obtain ⟨s', rfl, hs'⟩ := hf.ofFirst hI hr (by rw [hk]; exact hret) hu
      exact .operand hn (ih (fun m hm => hI m (by simp [hm])) hs')

end Kettle.Statement
