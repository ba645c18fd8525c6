/-
Two runs side by side. Scopes of one store are paired with scopes of another one, and values are paired
if they differ only in the scopes of the functions in them, which are paired. Code that runs in paired
scopes of stores that match gives paired values, or the same fault, and leaves stores that match: no
computation looks at the number of a scope, but to find the scope.
-/
import Kettle.Proofs.Eval.Frame
import Mathlib.Data.List.Forall2

namespace Kettle

/-! ## Pairings of scopes -/

/-- A pairing of the scopes of two stores: some scopes that both stores have, and the scopes made since
the stores had `left` and `right` of them. -/
structure Pairing where
  old : ScopeId → Prop
  left : Nat
  right : Nat
  old_lt : ∀ id : Nat, old id → id < left ∧ id < right

namespace Pairing

/-- A scope that both stores have is paired with itself, and a scope made since with the one that was
made in its place. -/
def Pairs (ρ : Pairing) (i j : Nat) : Prop :=
  (ρ.old i ∧ i = j) ∨ ∃ k, i = ρ.left + k ∧ j = ρ.right + k

variable {ρ : Pairing} {i j i' j' : Nat}

/-- Pairs are in the same order on both sides. -/
theorem Pairs.lt_iff (h : ρ.Pairs i j) (h' : ρ.Pairs i' j') : i < i' ↔ j < j' := by
  rcases h with ⟨ho, rfl⟩ | ⟨k, rfl, rfl⟩
  · have hi := ρ.old_lt i ho
    rcases h' with ⟨-, rfl⟩ | ⟨k', rfl, rfl⟩
    · exact Iff.rfl
    · omega
  · rcases h' with ⟨ho', rfl⟩ | ⟨k', rfl, rfl⟩
    · have hi := ρ.old_lt i' ho'
      omega
    · omega

theorem Pairs.eq_iff (h : ρ.Pairs i j) (h' : ρ.Pairs i' j') : i = i' ↔ j = j' := by
  have hlt := h.lt_iff h'
  have hgt := h'.lt_iff h
  omega

end Pairing

/-! ## Paired values -/

namespace Value

/-- Values that differ only in the scopes of functions, which are in relation. -/
inductive Paired (R : ScopeId → ScopeId → Prop) : Value → Value → Prop where
  | scalar {v : Value} (h : v.isScalar = true) : Paired R v v
  | tuple {vs ws : List Value} (h : List.Forall₂ (Paired R) vs ws) : Paired R (.tuple vs) (.tuple ws)
  | fn {params : List Text} {body : Node} {code : Code} {i j : ScopeId} (h : R i j) :
      Paired R (.fn ⟨params, body, code, i⟩) (.fn ⟨params, body, code, j⟩)
  | flow (kind : FlowKind) {v w : Value} (h : Paired R v w) : Paired R (.flow kind v) (.flow kind w)

variable {R : ScopeId → ScopeId → Prop} {v w : Value}

theorem Paired.isFlow_eq (h : Paired R v w) : v.isFlow = w.isFlow := by cases h <;> rfl

theorem Paired.typeName_eq (h : Paired R v w) : v.typeName = w.typeName := by cases h <;> rfl

mutual

/-- Paired values are written alike. -/
theorem Paired.shown_eq : ∀ {v w : Value}, Paired R v w → v.shown = w.shown
  | _, _, .scalar _ => rfl
  | _, _, .tuple h => by rw [shown, shown, shownAll_eq h]
  | _, _, .fn _ => rfl
  | _, _, .flow kind h => by
    have hpayload := h.shown_eq
    cases h with
    | scalar => rfl
    | tuple h => simp only [shown] at hpayload ⊢; rw [hpayload]
    | fn h => rfl
    | flow kind' h => simp only [shown] at hpayload ⊢; rw [hpayload]

theorem shownAll_eq : ∀ {vs ws : List Value}, List.Forall₂ (Paired R) vs ws → shownAll vs = shownAll ws
  | _, _, .nil => rfl
  | _, _, .cons h hs => by rw [shownAll, shownAll, h.shown_eq, shownAll_eq hs]

end

mutual

/-- Paired values have as many levels. -/
theorem Paired.depth_eq : ∀ {v w : Value}, Paired R v w → v.depth = w.depth
  | _, _, .scalar _ => rfl
  | _, _, .tuple h => by rw [depth, depth, depthAll_eq h]
  | _, _, .fn _ => rfl
  | _, _, .flow _ h => by rw [depth, depth, h.depth_eq]

theorem depthAll_eq : ∀ {vs ws : List Value}, List.Forall₂ (Paired R) vs ws → depthAll vs = depthAll ws
  | _, _, .nil => rfl
  | _, _, .cons h hs => by rw [depthAll, depthAll, h.depth_eq, depthAll_eq hs]

end

theorem Paired.shown?_eq (h : Paired R v w) (limit : Nat) : v.shown? limit = w.shown? limit := by
  rw [shown?, shown?, h.depth_eq, h.shown_eq]

theorem Paired.truth?_eq (h : Paired R v w) (depth : Nat) : v.truth? depth = w.truth? depth := by
  induction depth generalizing v w with
  | zero =>
    cases h with
    | tuple h => cases h <;> rfl
    | _ => rfl
  | succ depth ih =>
    cases h with
    | tuple h =>
      cases h with
      | nil => rfl
      | cons h _ => exact ih h
    | _ => rfl

/-- Operators look at no functions. -/
theorem Paired.apply_eq {v' w' : Value} (h : Paired R v w) (h' : Paired R v' w') (op : Operator) :
    op.apply v v' = op.apply w w' := by
  cases h with
  | scalar =>
    cases h' with
    | scalar => rfl
    | _ => cases v <;> rfl
  | _ => cases h' <;> rfl

end Value

/-! ## Stores that match -/

/-- Scopes with the same names bound to paired values, and with parents in relation. -/
structure Scope.Paired (R : ScopeId → ScopeId → Prop) (s s' : Scope) : Prop where
  parent : Option.Rel R s.parent s'.parent
  bindings : List.Forall₂ (fun b b' => b.1 = b'.1 ∧ b.2.Paired R b'.2) s.bindings s'.bindings

namespace Scope

variable {R : ScopeId → ScopeId → Prop} {s s' : Scope} {v v' : Value}

theorem Paired.get? (h : s.Paired R s') (name : Text) : Option.Rel (Value.Paired R) (s.get? name) (s'.get? name) := by
  have hbindings := h.bindings
  unfold Scope.get?
  generalize s.bindings = bs, s'.bindings = bs' at hbindings
  induction hbindings with
  | nil => exact .none
  | @cons b b' bs bs' hb _ ih =>
    rw [List.lookup_cons, List.lookup_cons, hb.1]
    cases name == b'.1 with
    | true => exact .some hb.2
    | false => exact ih

theorem Paired.set (h : s.Paired R s') (name : Text) (hv : v.Paired R v') :
    (s.set name v).Paired R (s'.set name v') := by
  refine ⟨h.parent, ?_⟩
  have hbindings := h.bindings
  unfold Scope.set
  generalize s.bindings = bs, s'.bindings = bs' at hbindings
  induction hbindings with
  | nil => exact .cons ⟨rfl, hv⟩ .nil
  | @cons b b' bs bs' hb hbs ih =>
    obtain ⟨n, w⟩ := b
    obtain ⟨n', w'⟩ := b'
    obtain ⟨rfl, hw⟩ := hb
    simp only [setIn]
    split
    · exact .cons ⟨rfl, hv⟩ hbs
    · exact .cons ⟨rfl, hw⟩ ih

end Scope

/-- Stores that match under a pairing: as many scopes were made in each, and paired scopes
have paired contents. -/
structure Store.Matches (ρ : Pairing) (s s' : Store) : Prop where
  made : ∃ k, s.size = ρ.left + k ∧ s'.size = ρ.right + k
  scopes : ∀ i j, ρ.Pairs i j → Option.Rel (Scope.Paired ρ.Pairs) (s.get? i) (s'.get? j)

namespace Store

variable {ρ : Pairing} {s s' : Store} {i j : ScopeId} {v v' : Value}

/-- The scopes that are made next are paired. -/
theorem Matches.pairs_size (h : s.Matches ρ s') : ρ.Pairs s.size s'.size := .inr h.made

theorem Matches.bind (h : s.Matches ρ s') (hij : ρ.Pairs i j) (name : Text) (hv : v.Paired ρ.Pairs v') :
    (s.bind i name v).Matches ρ (s'.bind j name v') := by
  refine ⟨by simpa using h.made, fun i' j' hpair => ?_⟩
  have hscope := h.scopes i' j' hpair
  rw [get?_bind, get?_bind]
  by_cases he : i = i'
  · rw [if_pos he, if_pos ((hij.eq_iff hpair).1 he)]
    generalize s.get? i' = r, s'.get? j' = r' at hscope
    cases hscope with
    | none => exact .none
    | some hscope => exact .some (hscope.set name hv)
  · rw [if_neg he, if_neg fun he' => he ((hij.eq_iff hpair).2 he')]
    exact hscope

theorem Matches.bindAll {bs bs' : List (Text × Value)} (h : s.Matches ρ s') (hij : ρ.Pairs i j)
    (hbs : List.Forall₂ (fun b b' => b.1 = b'.1 ∧ b.2.Paired ρ.Pairs b'.2) bs bs') :
    (s.bindAll i bs).Matches ρ (s'.bindAll j bs') := by
  induction hbs generalizing s s' with
  | nil => exact h
  | @cons b b' bs bs' hb _ ih =>
    obtain ⟨name, v⟩ := b
    obtain ⟨name', v'⟩ := b'
    obtain ⟨rfl, hv⟩ := hb
    exact ih (h.bind hij name hv)

theorem Matches.add (h : s.Matches ρ s') (hij : ρ.Pairs i j) :
    (s.add (some i)).2.Matches ρ (s'.add (some j)).2 := by
  refine ⟨?_, fun i' j' hpair => ?_⟩
  · obtain ⟨k, hk, hk'⟩ := h.made
    exact ⟨k + 1, by rw [size_add, hk, Nat.add_assoc], by rw [size_add, hk', Nat.add_assoc]⟩
  · rw [get?_add, get?_add]
    by_cases he : i' = s.size
    · rw [if_pos he, if_pos ((hpair.eq_iff h.pairs_size).1 he)]
      exact .some ⟨.some hij, .nil⟩
    · rw [if_neg he, if_neg fun he' => he ((hpair.eq_iff h.pairs_size).2 he')]
      exact h.scopes i' j' hpair

theorem Matches.chain (h : s.Matches ρ s') (hij : ρ.Pairs i j) :
    List.Forall₂ (Scope.Paired ρ.Pairs) (s.chain i) (s'.chain j) := by
  induction i using Store.chain_induct s generalizing j with
  | missing i hi =>
    have hscope := h.scopes i j hij
    rw [hi] at hscope
    rw [Store.chain.eq_def]
    generalize s'.get? j = r at hscope
    cases hscope
    exact .nil
  | found i scope hi ih =>
    have hscope := h.scopes i j hij
    rw [hi] at hscope
    rw [Store.chain.eq_def]
    generalize s'.get? j = r at hscope
    cases hscope with
    | @some _ scope' hscope =>
      refine .cons hscope ?_
      have hparent := hscope.parent
      generalize scope.parent = p, scope'.parent = p' at hparent
      cases hparent with
      | none => exact .nil
      | @some p p' hp =>
        -- the parent is older on both sides or on none
        by_cases hlt : p < i
        · simp only [if_pos hlt, if_pos ((hp.lt_iff hij).1 hlt)]
          exact ih p hlt hp
        · simp only [if_neg hlt, if_neg fun hlt' => hlt ((hp.lt_iff hij).2 hlt')]
          exact .nil

theorem Matches.lookup (h : s.Matches ρ s') (hij : ρ.Pairs i j) (name : Text) :
    (s.lookup i name).Paired ρ.Pairs (s'.lookup j name) := by
  have hchain := h.chain hij
  unfold Store.lookup
  generalize s.chain i = scopes, s'.chain j = scopes' at hchain
  induction hchain with
  | nil => exact .scalar rfl
  | @cons scope scope' _ _ hscope _ ih =>
    simp only [List.findSome?_cons]
    have hget := hscope.get? name
    generalize scope.get? name = r, scope'.get? name = r' at hget
    cases hget with
    | none => exact ih
    | some hv => exact hv

end Store

/-! ## Computations side by side -/

/-- Two runs end in the same way: with values in relation or with the same error, in stores that match. -/
inductive EndPaired {ε α β : Type} (ρ : Pairing) (R : α → β → Prop) :
    Except ε α × Machine → Except ε β × Machine → Prop where
  | value {a : α} {b : β} {m m' : Machine} (h : R a b) (hm : m.store.Matches ρ m'.store) :
      EndPaired ρ R (.ok a, m) (.ok b, m')
  | error (e : ε) {m m' : Machine} (hm : m.store.Matches ρ m'.store) : EndPaired ρ R (.error e, m) (.error e, m')

namespace Eval

variable {ρ : Pairing} {α β α' β' : Type} {R : α → β → Prop} {R' : α' → β' → Prop}

/-- On machines whose stores match, two computations end in the same way. -/
def Agree (ρ : Pairing) (R : α → β → Prop) (x : Eval α) (x' : Eval β) : Prop :=
  ∀ m m', m.store.Matches ρ m'.store → EndPaired ρ R (exec x m) (exec x' m')

/-- Computations that give paired values. -/
abbrev AgreePaired (ρ : Pairing) : Eval Value → Eval Value → Prop := Agree ρ (Value.Paired ρ.Pairs)

theorem Agree.pure {a : α} {b : β} (h : R a b) : Agree ρ R (pure a) (pure b) := fun _ _ hm => .value h hm

theorem Agree.throw (stop : Stop) : Agree ρ R (throw stop) (throw stop) := fun _ _ hm => .error stop hm

theorem Agree.fail (cause : RuntimeCause) (pos : Option Position) : Agree ρ R (fail cause pos) (fail cause pos) :=
  .throw _

theorem Agree.bind {x : Eval α} {x' : Eval β} {f : α → Eval α'} {f' : β → Eval β'} (hx : Agree ρ R x x')
    (hf : ∀ a b, R a b → Agree ρ R' (f a) (f' b)) : Agree ρ R' (x >>= f) (x' >>= f') := by
  intro m m' hm
  have hend := hx m m' hm
  rw [exec_bind, exec_bind]
  generalize exec x m = r, exec x' m' = r' at hend
  cases hend with
  | value h hm => exact hf _ _ h _ _ hm
  | error e hm => exact .error e hm

variable {x x' : Eval Value} {v w : Value}

theorem Agree.andThen {f f' : Value → Eval Value} (hx : AgreePaired ρ x x')
    (hf : ∀ v w, v.Paired ρ.Pairs w → AgreePaired ρ (f v) (f' w)) : AgreePaired ρ (andThen x f) (andThen x' f') := by
  refine hx.bind fun v w hv => ?_
  rw [hv.isFlow_eq]
  split
  · exact .pure hv
  · exact hf v w hv

theorem Agree.withinCall (pos : Option Position) (hx : AgreePaired ρ x x') :
    AgreePaired ρ (withinCall pos x) (withinCall pos x') := by
  intro m m' hm
  have hend := hx m m' hm
  rw [exec_withinCall, exec_withinCall]
  generalize exec x m = r, exec x' m' = r' at hend
  cases hend with
  | value h hm => exact .value h hm
  | error e hm => cases e <;> exact .error _ hm

theorem agree_truth (limits : Limits) (h : v.Paired ρ.Pairs w) : Agree ρ Eq (truth limits v) (truth limits w) := by
  unfold truth
  rw [h.truth?_eq]
  split
  · exact .pure rfl
  · exact .throw _

theorem agree_binary {v' w' : Value} (op : Operator) (pos : Position) (h : v.Paired ρ.Pairs w)
    (h' : v'.Paired ρ.Pairs w') : AgreePaired ρ (binary op pos v v') (binary op pos w w') := by
  unfold binary
  rw [h.apply_eq h']
  split
  · rename_i hr
    exact .pure (.scalar (Operator.apply_scalar hr))
  · exact .fail _ _

theorem agree_negate (pos : Position) (h : v.Paired ρ.Pairs w) : AgreePaired ρ (negate pos v) (negate pos w) := by
  cases h with
  | scalar h =>
    cases v with
    | int n => exact .pure (.scalar rfl)
    | float x => exact .pure (.scalar rfl)
    | _ => exact .fail _ _
  | _ => exact .fail _ _

theorem agree_lookup {i j : ScopeId} (hij : ρ.Pairs i j) (name : Text) :
    AgreePaired ρ (lookup i name) (lookup j name) := fun _ _ hm => .value (hm.lookup hij name) hm

theorem agree_bindName {i j : ScopeId} (hij : ρ.Pairs i j) (name : Text) (h : v.Paired ρ.Pairs w) :
    AgreePaired ρ (Eval.bind i name v) (Eval.bind j name w) := fun _ _ hm => .value h (hm.bind hij name h)

theorem agree_enter {i j : ScopeId} {vs ws : List Value} (hij : ρ.Pairs i j) (params : List Text)
    (h : List.Forall₂ (Value.Paired ρ.Pairs) vs ws) :
    Agree ρ ρ.Pairs (enter i (params.zip vs)) (enter j (params.zip ws)) := by
  intro m m' hm
  refine .value hm.pairs_size ((hm.add hij).bindAll hm.pairs_size ?_)
  induction h generalizing params with
  | nil => cases params <;> exact .nil
  | cons h _ ih =>
    cases params with
    | nil => exact .nil
    | cons p params => exact .cons ⟨rfl, h⟩ (ih params)

theorem agree_leave (h : v.Paired ρ.Pairs w) : AgreePaired ρ (leave v) (leave w) := by
  cases h with
  | scalar h => cases v <;> first | exact .pure (.scalar rfl) | cases h
  | fn h => exact .pure (.fn h)
  | flow kind h =>
    cases kind with
    | ret => exact .pure h
    | brk => exact fun m m' hm => .value (.flow .brk h) hm
    | cont => exact fun m m' hm => .value (.flow .cont h) hm
  | tuple h =>
    cases h with
    | nil => exact .pure (.tuple .nil)
    | cons h₁ h =>
      cases h with
      | nil => exact .pure (.tuple (.cons h₁ .nil))
      | cons h₂ h =>
        cases h with
        | nil => exact .pure h₂
        | cons h₃ h => exact .pure (.tuple (.cons h₁ (.cons h₂ (.cons h₃ h))))

/-! ## Running code side by side -/

/-- Ways of making calls that agree on paired functions and arguments. -/
def AgreeCalls (ρ : Pairing) (call : Caller) : Prop :=
  ∀ {f g : Function} {vs ws : List Value} (pos : Option Position), (Value.fn f).Paired ρ.Pairs (.fn g) →
    List.Forall₂ (Value.Paired ρ.Pairs) vs ws → AgreePaired ρ (call f vs pos) (call g ws pos)

/-- What several computations give: values, paired one by one, or paired signals. -/
inductive PairedAll (ρ : Pairing) : Except Value (List Value) → Except Value (List Value) → Prop where
  | values {vs ws : List Value} (h : List.Forall₂ (Value.Paired ρ.Pairs) vs ws) : PairedAll ρ (.ok vs) (.ok ws)
  | signal {v w : Value} (h : v.Paired ρ.Pairs w) : PairedAll ρ (.error v) (.error w)

variable {limits : Limits} {call : Caller} {i j : ScopeId}

mutual

/-- Code agrees with itself in paired scopes. -/
theorem agree_evaluate (hcall : AgreeCalls ρ call) (hij : ρ.Pairs i j) : ∀ c : Code,
    AgreePaired ρ (evaluate limits call i c) (evaluate limits call j c)
  | .literal l => by
    rw [evaluate, evaluate]
    exact .pure (.scalar (by cases l <;> rfl))
  | .lookup name => by
    rw [evaluate, evaluate]
    exact agree_lookup hij name
  | .assign name value => by
    rw [evaluate, evaluate]
    exact (agree_evaluate hcall hij value).andThen fun v w h => agree_bindName hij name h
  | .binary op pos left right => by
    rw [evaluate, evaluate]
    refine (agree_evaluate hcall hij left).andThen fun v w h => ?_
    exact (agree_evaluate hcall hij right).andThen fun v' w' h' => agree_binary op pos h h'
  | .and left right => by
    rw [evaluate, evaluate]
    refine (agree_evaluate hcall hij left).andThen fun v w h => (agree_truth limits h).bind ?_
    rintro b _ rfl
    cases b with
    | true => exact agree_evaluate hcall hij right
    | false => exact .pure h
  | .or left right => by
    rw [evaluate, evaluate]
    refine (agree_evaluate hcall hij left).andThen fun v w h => (agree_truth limits h).bind ?_
    rintro b _ rfl
    cases b with
    | true => exact .pure h
    | false => exact agree_evaluate hcall hij right
  | .not operand => by
    rw [evaluate, evaluate]
    refine (agree_evaluate hcall hij operand).andThen fun v w h => (agree_truth limits h).bind ?_
    rintro b _ rfl
    exact .pure (.scalar rfl)
  | .negate pos operand => by
    rw [evaluate, evaluate]
    exact (agree_evaluate hcall hij operand).andThen fun v w h => agree_negate pos h
  | .block statements => by
    rw [evaluate, evaluate]
    exact agree_evaluateBlock hcall hij statements (.scalar rfl)
  | .tuple items => by
    rw [evaluate, evaluate]
    refine (agree_evaluateAll hcall hij items).bind fun r r' h => ?_
    cases h with
    | values h => exact .pure (.tuple h)
    | signal h => exact .pure h
  | .function params body code => by
    rw [evaluate, evaluate]
    exact .pure (.fn hij)
  | .apply pos callee args => by
    rw [evaluate, evaluate]
    refine (agree_evaluate hcall hij callee).andThen fun v w h => ?_
    have hnot : AgreePaired ρ (refuse limits pos v) (refuse limits pos w) := by
      rw [refuse, refuse, h.typeName_eq, h.shown?_eq]
      split
      · exact .fail _ _
      · exact .throw _
    cases h with
    | fn h =>
      refine (agree_evaluateAll hcall hij args).bind fun r r' hr => ?_
      cases hr with
      | values hr => exact hcall (some pos) (.fn h) hr
      | signal hr => exact .pure hr
    | scalar h => cases v <;> first | exact hnot | cases h
    | _ => exact hnot
  | .ret operand => by
    rw [evaluate, evaluate]
    exact (agree_evaluate hcall hij operand).andThen fun v w h => .pure (.flow .ret h)
  | .jump kind => by
    rw [evaluate, evaluate]
    exact .pure (.flow kind (.scalar rfl))

theorem agree_evaluateBlock (hcall : AgreeCalls ρ call) (hij : ρ.Pairs i j) : ∀ (cs : List Code) {last last' : Value},
    last.Paired ρ.Pairs last' →
    AgreePaired ρ (evaluateBlock limits call i last cs) (evaluateBlock limits call j last' cs)
  | [], _, _, h => by
    rw [evaluateBlock, evaluateBlock]
    exact .pure (.tuple (.cons (.scalar rfl) (.cons h .nil)))
  | c :: cs, _, _, _ => by
    rw [evaluateBlock, evaluateBlock]
    exact (agree_evaluate hcall hij c).andThen fun v w h => agree_evaluateBlock hcall hij cs h

theorem agree_evaluateAll (hcall : AgreeCalls ρ call) (hij : ρ.Pairs i j) : ∀ cs : List Code,
    Agree ρ (PairedAll ρ) (evaluateAll limits call i cs) (evaluateAll limits call j cs)
  | [] => by
    rw [evaluateAll, evaluateAll]
    exact .pure (.values .nil)
  | c :: cs => by
    rw [evaluateAll, evaluateAll]
    refine (agree_evaluate hcall hij c).bind fun v w h => ?_
    rw [h.isFlow_eq]
    split
    · exact .pure (.signal h)
    · refine (agree_evaluateAll hcall hij cs).bind fun r r' hr => ?_
      cases hr with
      | values hr => exact .pure (.values (.cons h hr))
      | signal hr => exact .pure (.signal hr)

end

/-- Calls of paired functions with paired arguments agree. -/
theorem agree_call (ρ : Pairing) (limits : Limits) (depth : Nat) : AgreeCalls ρ (Eval.call limits depth) := by
  induction depth with
  | zero =>
    intro f g vs ws pos hf hvs
    cases hf with
    | scalar h => cases h
    | fn hij =>
      unfold Eval.call
      rw [hvs.length_eq]
      split
      · exact .fail _ _
      · exact .fail _ _
  | succ depth ih =>
    intro f g vs ws pos hf hvs
    cases hf with
    | scalar h => cases h
    | fn hij =>
      unfold Eval.call
      rw [hvs.length_eq]
      split
      · exact .fail _ _
      · refine (agree_enter hij _ hvs).bind fun i j hij => ?_
        exact ((agree_evaluate ih hij _).withinCall pos).bind fun v w h => agree_leave h

end Eval

end Kettle
