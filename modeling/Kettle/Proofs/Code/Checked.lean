/-
Compiling well-formed trees. The shape that a kind of node needs is checked where the node is compiled,
and the grammar makes nodes of that shape only, so none of these checks ever fails on the tree of a
source. What remains of a tree that compiles is code whose numbers have 64 bits, whose tuples do not have
exactly one item, and whose functions have parameters that differ and blocks for bodies.
-/
import Kettle.Code.Compile
import Kettle.Proofs.Literal.Number
import Kettle.Proofs.Tree.Halt
import Kettle.Proofs.Tree.Shape
import Mathlib.Data.List.Basic

namespace Kettle

/-! ## Faults of shape -/

/-- Whether a fault is about the shape of a tree: a kind of node that has no code, parts that are missing,
too many or of the wrong kind, or a number that is none. -/
def CompileCause.isShape : CompileCause → Bool
  | uncompilable .. | operandCount .. | callParts | returnOperands | paramsNotGrouped | bodyNotBlock
  | malformedNumber _ => true
  | _ => false

/-- Whether a fault is about the shape of a tree. -/
def Fault.isShape : Fault → Bool
  | compile cause _ => cause.isShape
  | _ => false

/-- Compiling gives something with the property `Q`, unless it fails for a reason other than shape. -/
def Compiles {α : Type} (Q : α → Prop) : Except Fault α → Prop
  | .ok a => Q a
  | .error f => f.isShape = false

section

variable {α β : Type} {Q : α → Prop} {R : β → Prop}

theorem Compiles.bind {x : Except Fault α} {f : α → Except Fault β} (hx : Compiles Q x)
    (hf : ∀ a, Q a → Compiles R (f a)) : Compiles R (x >>= f) := by
  cases x with
  | error e => exact hx
  | ok a => exact hf a hx

theorem Compiles.mapM {f : α → Except Fault β} {as : List α} (hf : ∀ a ∈ as, Compiles R (f a)) :
    Compiles (fun bs => bs.length = as.length ∧ ∀ b ∈ bs, R b) (as.mapM f) := by
  induction as with
  | nil => exact ⟨rfl, by simp⟩
  | cons a as ih =>
    rw [List.mapM_cons]
    refine (hf a (by simp)).bind fun b hb => (ih fun a ha => hf a (by simp [ha])).bind fun bs hbs => ?_
    exact ⟨by simp [hbs.1], List.forall_mem_cons.2 ⟨hb, hbs.2⟩⟩

end

/-! ## Code -/

/-- A literal that is an integer has 64 bits at most. -/
def Literal.InRange : Literal → Prop
  | int n => Word.fits n = true
  | _ => True

namespace Code

/-- A piece of code is that of a tree. -/
def Of (n : Node) (c : Code) : Prop := ∃ limits top depth, compileAt limits top depth n = .ok c

/-- What compiling establishes of code, at every depth. -/
inductive Checked : Code → Prop where
  | literal {l : Literal} (h : l.InRange) : Checked (.literal l)
  | lookup (name : Text) : Checked (.lookup name)
  | assign (name : Text) {value : Code} (h : Checked value) : Checked (.assign name value)
  | binary (op : Operator) (pos : Position) {left right : Code} (hl : Checked left) (hr : Checked right) :
      Checked (.binary op pos left right)
  | and {left right : Code} (hl : Checked left) (hr : Checked right) : Checked (.and left right)
  | or {left right : Code} (hl : Checked left) (hr : Checked right) : Checked (.or left right)
  | not {operand : Code} (h : Checked operand) : Checked (.not operand)
  | negate (pos : Position) {operand : Code} (h : Checked operand) : Checked (.negate pos operand)
  | block {statements : List Code} (h : ∀ c ∈ statements, Checked c) : Checked (.block statements)
  | tuple {items : List Code} (hlength : items.length ≠ 1) (h : ∀ c ∈ items, Checked c) : Checked (.tuple items)
  | function {params : List Text} {body : Node} {code : Code} (hparams : params.Nodup) (hbody : body.kind = .lbrace)
      (hcode : Of body code) (h : Checked code) : Checked (.function params body code)
  | apply (pos : Position) {callee : Code} {args : List Code} (hf : Checked callee) (ha : ∀ c ∈ args, Checked c) :
      Checked (.apply pos callee args)
  | ret {operand : Code} (h : Checked operand) : Checked (.ret operand)
  | jump (kind : FlowKind) : Checked (.jump kind)

/-- The kinds of nodes that have code. -/
def kinds : List Kind :=
  [.lbrace, .lpar, .comma, .ident, .number, .doubleQuoted, .singleQuoted, .backquoted, .assign, .plus, .minus,
   .star, .slash, .mod, .eq, .neq, .lt, .gt, .lte, .gte, .and, .or, .not, .neg, .function, .apply, .ret, .brk, .cont]

variable {limits : Limits} {top : Position} {n : Node}

theorem kind_mem_of_shaped (h : n.shaped = true) : n.kind ∈ kinds := by
  unfold Node.shaped at h
  cases hk : n.kind <;> first | decide | (rw [hk] at h; cases h)

/-! ## The checks that compiling makes -/

theorem two_compiles (what : Text) (h : n.WellFormed) (hlength : n.children.length = 2) :
    Compiles (fun sides => sides.1.WellFormed ∧ sides.2.WellFormed) (two n what) := by
  obtain ⟨left, right, hc⟩ := List.length_eq_two.1 hlength
  unfold two
  rw [hc]
  exact ⟨h.child (by simp [hc]), h.child (by simp [hc])⟩

theorem one_compiles (what : Text) (h : n.WellFormed) (hlength : n.children.length = 1) :
    Compiles Node.WellFormed (one n what) := by
  obtain ⟨operand, hc⟩ := List.length_eq_one_iff.1 hlength
  unfold one
  rw [hc]
  exact h.child (by simp [hc])

theorem target_compiles (n : Node) : Compiles (fun _ => True) (target n) := by
  unfold target
  split
  · rfl
  · split
    · rfl
    · trivial

theorem entries_compiles (list : Listing) (h : n.WellFormed) :
    Compiles (fun ns => ∀ m ∈ ns, m.WellFormed) (entries list n) := by
  unfold entries
  split
  · simpa [Compiles] using h
  · split
    · simp [Compiles]
    · rename_i only hc
      have honly : only.WellFormed := h.child (by simp [hc])
      show ∀ m ∈ if only.kind = .comma then only.children else [only], m.WellFormed
      split
      · exact fun m hm => honly.child hm
      · simpa using honly
    · rfl

theorem names_compiles {seen : List Text} (hseen : seen.Nodup) (ns : List Node) :
    Compiles List.Nodup (names seen ns) := by
  induction ns generalizing seen with
  | nil => exact hseen
  | cons n ns ih =>
    rw [names]
    split
    · rfl
    · split
      · rfl
      · rename_i hnew
        refine ih (List.nodup_append.2 ⟨hseen, by simp, ?_⟩)
        rintro a ha _ hb rfl
        exact hnew (by simpa [List.mem_singleton.1 hb] using ha)

theorem params_compiles (h : n.WellFormed) (hk : n.kind = .lpar) : Compiles List.Nodup (params n) := by
  unfold params
  rw [if_neg (by simp [hk])]
  exact (entries_compiles .params h).bind fun ns _ => names_compiles (by simp) ns

theorem ofNumber_inRange {text : Text} {pos : Position} {l : Literal} (h : Literal.ofNumber limits text pos = .ok l) :
    l.InRange := by
  have hfloat : ∀ {l}, Literal.floatOf text pos = .ok l → l.InRange := by
    intro l hl
    unfold Literal.floatOf at hl
    split at hl
    · cases hl
      trivial
    · cases hl
  unfold Literal.ofNumber at h
  split at h
  · exact hfloat h
  · split at h
    · cases h
    · cases h
    · split at h
      · cases h
        assumption
      · exact hfloat h

theorem ofNumber_compiles {text : Text} (pos : Position) (h : Lexeme.Spells .number text) :
    Compiles Literal.InRange (Literal.ofNumber limits text pos) := by
  rcases Literal.ofNumber_of_spells limits pos h with ⟨l, hl⟩ | hlong
  · rw [hl]
    exact ofNumber_inRange hl
  · rw [hlong]
    rfl

theorem ofString_compiles (kind : Kind) (text : Text) (pos : Position) :
    Compiles Literal.InRange (Literal.ofString kind text pos) := by
  unfold Literal.ofString Literal.decodeAt
  split
  · trivial
  · cases Literal.decode (Literal.inside text) with
    | ok t => trivial
    | error e => rfl

theorem ofName?_inRange {name : Text} {l : Literal} (h : Literal.ofName? name = some l) : l.InRange := by
  have hreserved : ∀ entry ∈ Literal.reserved, entry.2.InRange := by simp [Literal.reserved, Literal.InRange]
  obtain ⟨before, after, hsplit, -⟩ := List.lookup_eq_some_iff.1 h
  exact hreserved (name, l) (by simp [hsplit])

/-! ## Trees -/

/-- A well-formed tree compiles to checked code, or fails for a reason other than shape. -/
theorem compileAt_checked (limits : Limits) (top : Position) : ∀ (depth : Nat) {n : Node}, n.WellFormed →
    Compiles Checked (compileAt limits top depth n)
  | 0, _, _ => rfl
  | depth + 1, n, hn => by
    have hsub : ∀ {m : Node}, m.WellFormed → Compiles Checked (compileAt limits top depth m) :=
      compileAt_checked limits top depth
    have hall : ∀ {ns : List Node}, (∀ m ∈ ns, m.WellFormed) →
        Compiles (fun cs => cs.length = ns.length ∧ ∀ c ∈ cs, Checked c) (ns.mapM (compileAt limits top depth)) :=
      fun hns => Compiles.mapM fun m hm => hsub (hns m hm)
    have hs := hn.formed.shaped
    unfold compileAt
    -- one case for each kind of node that compiles, in their order; the last one is for operators
    split
    · exact (hall fun m hm => hn.child hm).bind fun cs hcs => .block hcs.2
    · rename_i hk
      split
      · exact Checked.tuple (by simp) (by simp)
      · rename_i only hc
        exact hsub (hn.child (by simp [hc]))
      · rfl
    · rename_i hk
      have hlength : 2 ≤ n.children.length := by
        simp only [Node.shaped, hk, Bool.and_eq_true, decide_eq_true_eq] at hs
        exact hs.1
      exact (hall fun m hm => hn.child hm).bind fun cs hcs => .tuple (by omega) hcs.2
    · split
      · rename_i l hl
        exact Checked.literal (ofName?_inRange hl)
      · exact Checked.lookup n.text
    · rename_i hk
      exact (ofNumber_compiles n.pos (hn.formed.numeral hk)).bind fun l hl => .literal hl
    · exact (ofString_compiles n.kind n.text n.pos).bind fun l hl => .literal hl
    · exact (ofString_compiles n.kind n.text n.pos).bind fun l hl => .literal hl
    · exact (ofString_compiles n.kind n.text n.pos).bind fun l hl => .literal hl
    · rename_i hk
      refine (two_compiles _ hn (by simpa [Node.shaped, hk] using hs)).bind fun sides hsides => ?_
      refine (target_compiles sides.1).bind fun name _ => ?_
      exact (hsub hsides.2).bind fun value hvalue => .assign name hvalue
    · rename_i hk
      refine (two_compiles _ hn (by simpa [Node.shaped, hk] using hs)).bind fun sides hsides => ?_
      exact (hsub hsides.1).bind fun left hl => (hsub hsides.2).bind fun right hr => .and hl hr
    · rename_i hk
      refine (two_compiles _ hn (by simpa [Node.shaped, hk] using hs)).bind fun sides hsides => ?_
      exact (hsub hsides.1).bind fun left hl => (hsub hsides.2).bind fun right hr => .or hl hr
    · rename_i hk
      refine (one_compiles _ hn (by simpa [Node.shaped, hk] using hs)).bind fun operand hoperand => ?_
      exact (hsub hoperand).bind fun c hc => .not hc
    · rename_i hk
      refine (one_compiles _ hn (by simpa [Node.shaped, hk] using hs)).bind fun operand hoperand => ?_
      exact (hsub hoperand).bind fun c hc => .negate n.pos hc
    · rename_i hk
      split
      · rename_i list body hc
        obtain ⟨hlist, hbody⟩ : list.kind = .lpar ∧ body.kind = .lbrace := by simpa [Node.shaped, hk, hc] using hs
        refine (params_compiles (hn.child (by simp [hc])) hlist).bind fun names hnames => ?_
        rw [if_neg (by simp [hbody])]
        have hcode := hsub (hn.child (c := body) (by simp [hc]))
        cases hb : compileAt limits top depth body with
        | error f => rwa [hb] at hcode
        | ok code =>
          rw [hb] at hcode
          exact Checked.function hnames hbody ⟨limits, top, depth, hb⟩ hcode
      · rfl
    · rename_i hk
      obtain ⟨callee, list, hc, -⟩ := n.shaped_apply hs hk
      simp only [hc]
      refine (hsub (hn.child (by simp [hc]))).bind fun f hf => ?_
      refine (entries_compiles .args (hn.child (by simp [hc]))).bind fun args hargs => ?_
      exact (hall hargs).bind fun cs hcs => .apply n.pos hf hcs.2
    · rename_i hk
      have hlength : n.children.length ≤ 1 := by simpa [Node.shaped, hk] using hs
      rcases hc : n.children with - | ⟨operand, - | ⟨more, rest⟩⟩
      · exact Checked.ret (.literal trivial)
      · exact (hsub (hn.child (by simp [hc]))).bind fun c hc => .ret hc
      · rw [hc] at hlength
        simp at hlength
    · exact Checked.jump .brk
    · exact Checked.jump .cont
    · split
      · rename_i op hop
        refine (two_compiles _ hn (n.shaped_operator hs hop)).bind fun sides hsides => ?_
        exact (hsub hsides.1).bind fun left hl => (hsub hsides.2).bind fun right hr => .binary op n.pos hl hr
      · -- all kinds that a well-formed node can have are among the cases before
        rename_i hop
        have hmem := kind_mem_of_shaped hs
        cases hk : n.kind <;> simp_all [kinds, Operator.ofKind?]

theorem compile_checked (h : n.WellFormed) {c : Code} (hc : compile limits n = .ok c) : c.Checked := by
  have hchecked := compileAt_checked limits n.pos limits.nodes h
  unfold compile at hc
  rwa [hc] at hchecked

theorem compile_error (h : n.WellFormed) {f : Fault} (hf : compile limits n = .error f) : f.isShape = false := by
  have hchecked := compileAt_checked limits n.pos limits.nodes h
  unfold compile at hf
  rwa [hf] at hchecked

end Code

/-- The trees of sources have the shape that compiling asks for. A source that is scanned to its end has a
tree, unless its brackets go too deep. Every node of the tree is resolved, is of a kind that has code, which
no compound assignment is, and has the children that its kind asks for; and where the tree does not compile,
within whatever limits, the reason is not its shape. -/
theorem parsed_trees_have_shape (limits : Limits) (source text : Text) (pos : Position)
    (h : (scan source text).ending = .finished pos) :
    (parse limits source text).result = .error (Tree.tooDeep source) ∨
      ∃ root, (parse limits source text).result = .ok root ∧
        (∀ m ∈ root.preorder, m.resolved = true ∧ m.kind ∈ Code.kinds ∧ m.kind.compound? = none ∧ m.shaped = true) ∧
        ∀ limits' f, Code.compile limits' root = .error f → f.isShape = false := by
  refine (parse_finished limits h).imp_right fun ⟨root, hresult⟩ => ?_
  have hroot := parse_wellFormed hresult
  have hcompound : ∀ k ∈ Code.kinds, k.compound? = none := by decide
  refine ⟨root, hresult, fun m hm => ?_, fun limits' f hf => Code.compile_error hroot hf⟩
  have hm := hroot m hm
  have hkind := Code.kind_mem_of_shaped hm.shaped
  exact ⟨hm.resolved, hkind, hcompound _ hkind, hm.shaped⟩

/-- A compound assignment of a call with a stray bracket behind it: what is kept has the right shape. -/
theorem parsed_trees_have_shape_stray : ∃ root, (parse .standard [] "x += f(1, 2); )").result = .ok root ∧
    (root.preorder.map Node.kind = [.lbrace, .assign, .ident, .plus, .ident, .apply, .ident, .lpar, .comma, .number,
      .number]) ∧ ∀ m ∈ root.preorder, m.shaped = true := by
  have hscan : (scan [] "x += f(1, 2); )").ending = .finished ⟨1, 16, []⟩ := by decide +kernel
  rcases parsed_trees_have_shape .standard [] "x += f(1, 2); )" _ hscan with hdeep | ⟨root, hroot, hnodes, -⟩
  · have hkinds : ((parse .standard [] "x += f(1, 2); )").result.map fun n => n.kind) = .ok .lbrace := by decide +kernel
    rw [hdeep] at hkinds
    cases hkinds
  · have hkinds : ((parse .standard [] "x += f(1, 2); )").result.map fun n => n.preorder.map Node.kind) =
        .ok [.lbrace, .assign, .ident, .plus, .ident, .apply, .ident, .lpar, .comma, .number, .number] := by decide +kernel
    rw [hroot] at hkinds
    exact ⟨root, hroot, Except.ok.inj hkinds, fun m hm => (hnodes m hm).2.2.2⟩

end Kettle
