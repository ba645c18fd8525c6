/-
The faults of compiling. A tree that does not compile is at fault at one of its nodes, or it holds a number that
has no literal; and of the numbers that a source can spell, only those without a point that have more digits than an
integer may have are without one.
-/
import Kettle.Proofs.Code.Checked

namespace Kettle

/-! ## Faults of computations -/

/-- All faults of a computation have a property. -/
def Fails {α : Type} (E : Fault → Prop) (x : Except Fault α) : Prop := ∀ f, x = .error f → E f

namespace Fails

variable {α β : Type} {E : Fault → Prop}

theorem ok (a : α) : Fails E (.ok a) := by rintro f ⟨⟩

theorem error {f : Fault} (h : E f) : Fails E (.error f : Except Fault α) := by
  rintro _ ⟨⟩
  exact h

theorem bind {x : Except Fault α} {f : α → Except Fault β} (hx : Fails E x) (hf : ∀ a, x = .ok a → Fails E (f a)) :
    Fails E (x >>= f) := by
  cases x with
  | error e => exact error (hx e rfl)
  | ok a => exact hf a rfl

theorem mapM {f : α → Except Fault β} {as : List α} (hf : ∀ a ∈ as, Fails E (f a)) : Fails E (as.mapM f) := by
  induction as with
  | nil => exact ok []
  | cons a as ih =>
    rw [List.mapM_cons]
    refine (hf a (by simp)).bind fun b _ => (ih fun a ha => hf a (by simp [ha])).bind fun bs _ => ok _

end Fails

/-! ## Trees -/

namespace Code

/-- What can be wrong with a tree: a node of it does not compile, or it is deeper than the tree at `top` may be, or
a number in it has no literal. -/
def Blamed (limits : Limits) (top : Position) (n : Node) (f : Fault) : Prop :=
  (∃ cause pos, f = .compile cause pos ∧ (pos = top ∨ ∃ m ∈ n.preorder, pos = m.pos)) ∨
    ∃ m ∈ n.preorder, m.kind = .number ∧ Literal.ofNumber limits m.text m.pos = .error f

variable {limits : Limits} {top : Position} {n m : Node}

theorem Blamed.of_mem {c : Node} {f : Fault} (h : Blamed limits top c f) (hc : ∀ m ∈ c.preorder, m ∈ n.preorder) :
    Blamed limits top n f := by
  rcases h with ⟨cause, pos, hf, hpos⟩ | ⟨m, hm, hf⟩
  · exact .inl ⟨cause, pos, hf, hpos.imp_right fun ⟨m, hm, hp⟩ => ⟨m, hc m hm, hp⟩⟩
  · exact .inr ⟨m, hc m hm, hf⟩

theorem fails_fault {α : Type} (hm : m ∈ n.preorder) (cause : CompileCause) :
    Fails (Blamed limits top n) (fault m cause : Except Fault α) :=
  .error (.inl ⟨cause, m.pos, rfl, .inr ⟨m, hm, rfl⟩⟩)

theorem two_eq_ok {what : Text} {sides : Node × Node} (h : two n what = .ok sides) :
    n.children = [sides.1, sides.2] := by
  unfold two at h
  split at h
  · rename_i hc
    cases h
    exact hc
  · cases h

theorem one_eq_ok {what : Text} {operand : Node} (h : one n what = .ok operand) : n.children = [operand] := by
  unfold one at h
  split at h
  · rename_i hc
    cases h
    exact hc
  · cases h

theorem fails_two (n : Node) (what : Text) : Fails (Blamed limits top n) (two n what) := by
  unfold two
  split
  · exact .ok _
  · exact fails_fault n.mem_preorder_self _

theorem fails_one (n : Node) (what : Text) : Fails (Blamed limits top n) (one n what) := by
  unfold one
  split
  · exact .ok _
  · exact fails_fault n.mem_preorder_self _

theorem fails_target (hm : m ∈ n.preorder) : Fails (Blamed limits top n) (target m) := by
  unfold target
  split
  · exact fails_fault hm _
  · split
    · exact fails_fault hm _
    · exact .ok _

theorem fails_entries {group : Node} (hgroup : group ∈ n.preorder) (list : Listing) :
    Fails (Blamed limits top n) (entries list group) := by
  unfold entries
  split
  · exact .ok _
  · split
    · exact .ok _
    · exact .ok _
    · exact fails_fault hgroup _

/-- The entries of a list are nodes of it. -/
theorem entries_preorder {list : Listing} {group e : Node} {es : List Node} (h : entries list group = .ok es)
    (he : e ∈ es) : ∀ m ∈ e.preorder, m ∈ group.preorder := by
  unfold entries at h
  split at h
  · cases h
    rw [List.mem_singleton.1 he]
    exact fun m hm => hm
  · split at h
    · cases h
      cases he
    · rename_i only hc
      have honly : ∀ m ∈ only.preorder, m ∈ group.preorder := fun m => Node.mem_preorder_child (by simp [hc])
      cases h
      split at he
      · exact fun m hm => honly m (Node.mem_preorder_child he hm)
      · rw [List.mem_singleton.1 he]
        exact honly
    · cases h

theorem fails_params {list : Node} (hlist : ∀ m ∈ list.preorder, m ∈ n.preorder) :
    Fails (Blamed limits top n) (params list) := by
  have hnames : ∀ (ns : List Node) (seen : List Text), (∀ m ∈ ns, m ∈ n.preorder) →
      Fails (Blamed limits top n) (names seen ns) := by
    intro ns
    induction ns with
    | nil => exact fun seen _ => .ok seen
    | cons m ns ih =>
      intro seen hns
      rw [names]
      split
      · exact fails_fault (hns m (by simp)) _
      · split
        · exact fails_fault (hns m (by simp)) _
        · exact ih _ fun m hm => hns m (by simp [hm])
  have hself := hlist list list.mem_preorder_self
  unfold params
  split
  · exact fails_fault hself _
  · refine (fails_entries hself .params).bind fun ns hns => hnames ns [] fun m hm => ?_
    exact hlist m (entries_preorder hns hm m m.mem_preorder_self)

theorem fails_ofString (n : Node) (kind : Kind) (text : Text) :
    Fails (Blamed limits top n) (Literal.ofString kind text n.pos) := by
  unfold Literal.ofString Literal.decodeAt
  split
  · exact .ok _
  · cases Literal.decode (Literal.inside text) with
    | ok t => exact .ok _
    | error e => exact .error (.inl ⟨_, _, rfl, .inr ⟨n, n.mem_preorder_self, rfl⟩⟩)

/-- A tree that does not compile has a compile fault at a node of it or at the top, or holds a number without a
literal. -/
theorem compileAt_fails (limits : Limits) (top : Position) : ∀ (depth : Nat) (n : Node),
    Fails (Blamed limits top n) (compileAt limits top depth n)
  | 0, n => .error (.inl ⟨_, _, rfl, .inl rfl⟩)
  | depth + 1, n => by
    have hself : n ∈ n.preorder := n.mem_preorder_self
    have hchild : ∀ {m : Node}, m ∈ n.children → m ∈ n.preorder :=
      fun hm => Node.mem_preorder_child hm (Node.mem_preorder_self _)
    have hsub : ∀ {m : Node}, m ∈ n.children → Fails (Blamed limits top n) (compileAt limits top depth m) :=
      fun hm f hf => (compileAt_fails limits top depth _ f hf).of_mem fun _ => Node.mem_preorder_child hm
    have hall : Fails (Blamed limits top n) (n.children.mapM (compileAt limits top depth)) := .mapM fun m hm => hsub hm
    have hstring : Fails (Blamed limits top n) (Literal.ofString n.kind n.text n.pos >>= fun l => return Code.literal l) :=
      (fails_ofString n n.kind n.text).bind fun l _ => .ok _
    have hboth : ∀ (what : Text) (make : Code → Code → Code), Fails (Blamed limits top n) (do
        let sides ← two n what
        let left ← compileAt limits top depth sides.1
        return make left (← compileAt limits top depth sides.2)) := by
      intro what make
      refine (fails_two n what).bind fun sides hsides => ?_
      have hc := two_eq_ok hsides
      exact (hsub (by simp [hc])).bind fun left _ => (hsub (by simp [hc])).bind fun right _ => .ok _
    have honly : ∀ (what : Text) (make : Code → Code), Fails (Blamed limits top n) (do
        let operand ← one n what
        return make (← compileAt limits top depth operand)) := by
      intro what make
      refine (fails_one n what).bind fun operand hoperand => ?_
      exact (hsub (by simp [one_eq_ok hoperand])).bind fun c _ => .ok _
    unfold compileAt
    -- one case for each kind of node that compiles, in their order; the last one is for operators
    split
    · exact hall.bind fun cs _ => .ok _
    · split
      · exact .ok _
      · rename_i only hc
        exact hsub (by simp [hc])
      · rename_i hc
        exact fails_fault (hchild (by simp [hc])) _
    · exact hall.bind fun cs _ => .ok _
    · split <;> exact .ok _
    · rename_i hk
      refine Fails.bind (fun f hf => .inr ⟨n, hself, hk, hf⟩) fun l _ => .ok _
    · exact hstring
    · exact hstring
    · exact hstring
    · refine (fails_two n _).bind fun sides hsides => ?_
      have hc := two_eq_ok hsides
      refine (fails_target (hchild (by simp [hc]))).bind fun name _ => ?_
      exact (hsub (by simp [hc])).bind fun value _ => .ok _
    · exact hboth _ Code.and
    · exact hboth _ Code.or
    · exact honly _ Code.not
    · exact honly _ (Code.negate n.pos)
    · split
      · rename_i list body hc
        refine (fails_params fun m hm => Node.mem_preorder_child (by simp [hc]) hm).bind fun names _ => ?_
        split
        · exact fails_fault (hchild (by simp [hc])) _
        · exact (hsub (by simp [hc])).bind fun code _ => .ok _
      · exact fails_fault hself _
    · split
      · rename_i callee list hc
        refine (hsub (by simp [hc])).bind fun f _ => (fails_entries (hchild (by simp [hc])) .args).bind fun args hargs => ?_
        refine Fails.bind (Fails.mapM fun a ha f hf => ?_) fun cs _ => .ok _
        -- an argument is a node of the list, and so of the call
        refine (compileAt_fails limits top depth a f hf).of_mem fun m hm => ?_
        exact Node.mem_preorder_child (by simp [hc]) (entries_preorder hargs ha m hm)
      · exact fails_fault hself _
    · split
      · exact .ok _
      · rename_i operand hc
        exact (hsub (by simp [hc])).bind fun c _ => .ok _
      · exact fails_fault hself _
    · exact .ok _
    · exact .ok _
    · split
      · rename_i op _
        exact hboth _ (Code.binary op n.pos)
      · exact fails_fault hself _

end Code

/-- A number that has no point, and more digits than an integer may have. -/
def Node.Overlong (limits : Limits) (n : Node) : Prop :=
  n.kind = .number ∧ n.text.contains ('.' : Rune) = false ∧ limits.digits < n.text.length

/-- The tree of a source that does not compile has a compile fault at one of its nodes, or holds an integer that is
too long. -/
theorem Code.compile_fault_pos {limits : Limits} {source text : Text} {root : Node} {f : Fault}
    (hroot : (parse limits source text).result = .ok root) (hf : Code.compile limits root = .error f) :
    (∃ cause, ∃ n ∈ root.preorder, f = .compile cause n.pos) ∨
      ∃ n ∈ root.preorder, n.Overlong limits ∧ f = .numeral (.tooLong limits.digits n.text.length) := by
  rcases Code.compileAt_fails limits root.pos limits.nodes root f hf with ⟨cause, pos, rfl, hpos⟩ | ⟨n, hn, hk, hnumber⟩
  · rcases hpos with rfl | ⟨n, hn, rfl⟩
    · exact .inl ⟨cause, root, root.mem_preorder_self, rfl⟩
    · exact .inl ⟨cause, n, hn, rfl⟩
  · have hspells := (parse_wellFormed hroot n hn).numeral hk
    obtain ⟨hpoint, hlong, hfault⟩ := Literal.ofNumber_error hspells hnumber
    exact .inr ⟨n, hn, ⟨hk, hpoint, hlong⟩, hfault⟩

/-- The tree of a source that does not compile has a compile fault, or holds an integer that is too long. -/
theorem Code.compile_fault {limits : Limits} {source text : Text} {root : Node} {f : Fault}
    (hroot : (parse limits source text).result = .ok root) (hf : Code.compile limits root = .error f) :
    (∃ cause pos, f = .compile cause pos) ∨
      ∃ n ∈ root.preorder, n.Overlong limits ∧ f = .numeral (.tooLong limits.digits n.text.length) :=
  (Code.compile_fault_pos hroot hf).imp_left fun ⟨cause, n, _, hf⟩ => ⟨cause, n.pos, hf⟩

end Kettle
