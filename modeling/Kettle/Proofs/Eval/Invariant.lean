/-
Invariants of runs. A discipline says which machines, values, scopes and code are in order, and that
each single thing that code does keeps them so. Then all that code does keeps them so, whatever comes
of it, and everything is in order at every moment of a run.
-/
import Kettle.Proofs.Eval.Exec
import Kettle.Proofs.Eval.Task
import Kettle.Program

namespace Kettle

/-- The parts of code that run in the scope that the code runs in. -/
def Code.parts : Code → List Code
  | .assign _ value => [value]
  | .binary _ _ left right | .and left right | .or left right => [left, right]
  | .not operand | .negate _ operand | .ret operand => [operand]
  | .block cs | .tuple cs => cs
  | .apply _ callee args => callee :: args
  | _ => []

theorem Code.first?_mem {c c' : Code} (h : c.first? = some c') : c' ∈ c.parts := by
  cases c <;> cases h <;> simp [parts]

/-- Which machines are sound, which values fit a machine, in which scopes of it code may run, which
code may run, and to which machines running code in a scope may lead. -/
structure Discipline where
  Sound : Machine → Prop
  Fits : Machine → Value → Prop
  Home : Machine → ScopeId → Prop
  Allows : Code → Prop
  Leads : ScopeId → Machine → Machine → Prop
  leads_refl (scope : ScopeId) (m : Machine) : Leads scope m m
  leads_trans {scope : ScopeId} {m m' m'' : Machine} (h : Leads scope m m') (h' : Leads scope m' m'') :
    Leads scope m m''
  fits_leads {scope : ScopeId} {m m' : Machine} {v : Value} (h : Leads scope m m') (hv : Fits m v) : Fits m' v
  home_leads {scope : ScopeId} {m m' : Machine} (h : Leads scope m m') (hs : Home m scope) : Home m' scope
  part {c c' : Code} (h : Allows c) (hc : c' ∈ c.parts) : Allows c'
  nil (m : Machine) : Fits m .nil
  bool (m : Machine) (b : Bool) : Fits m (.bool b)
  literal (m : Machine) {l : Literal} (h : Allows (.literal l)) : Fits m l.value
  operator {m : Machine} {op : Operator} {a b v : Value} (h : op.apply a b = .ok v) (ha : Fits m a)
    (hb : Fits m b) : Fits m v
  negateInt {m : Machine} {n : Int} (h : Fits m (.int n)) : Fits m (.int (Word.wrap (-n)))
  negateFloat {m : Machine} {x : Float} (h : Fits m (.float x)) : Fits m (.float (-x))
  tuple {m : Machine} {items : List Code} {vs : List Value} (h : Allows (.tuple items))
    (hlength : vs.length = items.length) (hvs : ∀ v ∈ vs, Fits m v) : Fits m (.tuple vs)
  pair {m : Machine} {a b : Value} (ha : Fits m a) (hb : Fits m b) : Fits m (.tuple [a, b])
  item {m : Machine} {vs : List Value} {v : Value} (h : Fits m (.tuple vs)) (hv : v ∈ vs) : Fits m v
  payload {m : Machine} {kind : FlowKind} {v : Value} (h : Fits m (.flow kind v)) : Fits m v
  function {m : Machine} {scope : ScopeId} {params : List Text} {body : Node} {code : Code}
    (h : Allows (.function params body code)) (hs : Home m scope) : Fits m (.fn ⟨params, body, code, scope⟩)
  lookup {m : Machine} {scope : ScopeId} (name : Text) (hm : Sound m) (hs : Home m scope) :
    Fits m (m.store.lookup scope name)
  bind {m : Machine} {scope : ScopeId} {name : Text} {value : Code} {v : Value}
    (h : Allows (.assign name value)) (hm : Sound m) (hs : Home m scope) (hv : Fits m v) :
    Sound (m.bind scope name v) ∧ Leads scope m (m.bind scope name v)
  body {m : Machine} {f : Function} (hf : Fits m (.fn f)) : Allows f.code
  enter {m : Machine} {f : Function} {args : List Value} (hm : Sound m) (hf : Fits m (.fn f))
    (hargs : ∀ v ∈ args, Fits m v) (hlength : args.length = f.params.length) :
    Sound (m.enter f.scope (f.params.zip args)).2 ∧
      Home (m.enter f.scope (f.params.zip args)).2 (m.enter f.scope (f.params.zip args)).1
  leave {m m' : Machine} {scope parent : ScopeId} {bindings : List (Text × Value)}
    (h : Leads (m.enter parent bindings).1 (m.enter parent bindings).2 m') : Leads scope m m'
  escape {m : Machine} {v : Value} (scope : ScopeId) (kind : FlowKind) (hm : Sound m) (hv : Fits m v) :
    Sound (m.escape (.flow kind v)) ∧ Leads scope m (m.escape (.flow kind v))

namespace Discipline

open Eval

variable (D : Discipline)

/-- What code may give: a value that fits, or a signal around one. -/
def Gives (m : Machine) (v : Value) : Prop :=
  D.Fits m v ∨ ∃ kind payload, v = .flow kind payload ∧ D.Fits m payload

/-- What a call may give: a value that fits, or a signal around one that is no return signal. -/
def Returns (m : Machine) (v : Value) : Prop :=
  D.Fits m v ∨ ∃ kind payload, v = .flow kind payload ∧ kind ≠ .ret ∧ D.Fits m payload

/-- What several pieces of code may give: as many values that fit, or the first signal. -/
def GivesAll (count : Nat) (m : Machine) : Except Value (List Value) → Prop
  | .ok vs => vs.length = count ∧ ∀ v ∈ vs, D.Fits m v
  | .error signal => D.Gives m signal

/-- A computation leads from the machine `m` to a sound one, and what it gives has the property `Q`. -/
def Keeps (scope : ScopeId) {α : Type} (x : Eval α) (Q : α → Machine → Prop) (m : Machine) : Prop :=
  Ensures (fun m' => D.Sound m' ∧ D.Leads scope m m') x Q m

/-- A computation keeps everything in order in a scope where code may run. -/
def Runs (scope : ScopeId) (x : Eval Value) : Prop :=
  ∀ m, D.Sound m → D.Home m scope → D.Keeps scope x (fun v m' => D.Gives m' v) m

/-- A way of making calls that keeps everything in order. -/
def RunsCalls (call : Caller) : Prop :=
  ∀ scope f args pos m, D.Sound m → D.Fits m (.fn f) → (∀ v ∈ args, D.Fits m v) →
    D.Keeps scope (call f args pos) (fun v m' => D.Returns m' v) m

variable {D} {limits : Limits} {call : Caller} {scope : ScopeId} {m : Machine} {α β : Type} {v : Value}

theorem Gives.fits (h : D.Gives m v) (hv : v.isFlow = false) : D.Fits m v := by
  rcases h with h | ⟨kind, payload, rfl, -⟩
  · exact h
  · cases hv

theorem Gives.payload {kind : FlowKind} (h : D.Gives m (.flow kind v)) : D.Fits m v := by
  rcases h with h | ⟨_, _, ⟨⟩, h⟩
  · exact D.payload h
  · exact h

theorem Returns.gives (h : D.Returns m v) : D.Gives m v :=
  h.imp_right fun ⟨kind, payload, hv, _, hp⟩ => ⟨kind, payload, hv, hp⟩

/-! ## Computations -/

theorem keeps_pure {a : α} {Q : α → Machine → Prop} (hm : D.Sound m) (ha : Q a m) : D.Keeps scope (pure a) Q m :=
  ensures_pure ⟨hm, D.leads_refl scope m⟩ ha

theorem keeps_fail {Q : α → Machine → Prop} (cause : RuntimeCause) (pos : Option Position) (hm : D.Sound m) :
    D.Keeps scope (fail cause pos) Q m :=
  ensures_fail cause pos ⟨hm, D.leads_refl scope m⟩

theorem keeps_refuse {Q : Value → Machine → Prop} (limits : Limits) (pos : Position) (v : Value) (hm : D.Sound m) :
    D.Keeps scope (refuse limits pos v) Q m :=
  ensures_refuse limits pos v ⟨hm, D.leads_refl scope m⟩

theorem keeps_truth (limits : Limits) (v : Value) (hm : D.Sound m) :
    D.Keeps scope (truth limits v) (fun _ _ => True) m :=
  ensures_truth limits v ⟨hm, D.leads_refl scope m⟩ fun _ _ => trivial

theorem Keeps.bind {x : Eval α} {f : α → Eval β} {Q : α → Machine → Prop} {R : β → Machine → Prop}
    (hx : D.Keeps scope x Q m)
    (hf : ∀ a m', D.Sound m' → D.Leads scope m m' → Q a m' → D.Keeps scope (f a) R m') :
    D.Keeps scope (x >>= f) R m :=
  Ensures.bind hx fun a m' hm' ha => (hf a m' hm'.1 hm'.2 ha).mono
    (fun _ h => ⟨h.1, D.leads_trans hm'.2 h.2⟩) fun _ _ _ h => h

theorem Keeps.andThen {x : Eval Value} {f : Value → Eval Value}
    (hx : D.Keeps scope x (fun v m' => D.Gives m' v) m)
    (hf : ∀ v m', D.Sound m' → D.Leads scope m m' → D.Fits m' v →
      D.Keeps scope (f v) (fun v m'' => D.Gives m'' v) m') :
    D.Keeps scope (andThen x f) (fun v m' => D.Gives m' v) m := by
  unfold Eval.andThen
  refine hx.bind fun v m' hm' hl hv => ?_
  cases hflow : v.isFlow with
  | true => exact keeps_pure hm' hv
  | false => exact hf v m' hm' hl (hv.fits hflow)

theorem Runs.andThen {x : Eval Value} {f : Value → Eval Value} (hx : D.Runs scope x)
    (hf : ∀ v m, D.Sound m → D.Home m scope → D.Fits m v → D.Keeps scope (f v) (fun v m' => D.Gives m' v) m) :
    D.Runs scope (andThen x f) :=
  fun m hm hhome => (hx m hm hhome).andThen fun v m' hm' hl hv => hf v m' hm' (D.home_leads hl hhome) hv

/-- Deciding the truth of a value changes nothing. -/
theorem keeps_ofTruth {f : Bool → Eval Value} {Q : Value → Machine → Prop} (hm : D.Sound m)
    (hf : ∀ b m', D.Sound m' → D.Leads scope m m' → D.Keeps scope (f b) Q m') :
    D.Keeps scope (truth limits v >>= f) Q m :=
  (keeps_truth limits v hm).bind fun b m' hm' hl _ => hf b m' hm' hl

theorem keeps_negate (pos : Position) (hm : D.Sound m) (hv : D.Fits m v) :
    D.Keeps scope (negate pos v) (fun v m' => D.Gives m' v) m := by
  unfold negate
  split
  · exact keeps_pure hm (.inl (D.negateInt hv))
  · exact keeps_pure hm (.inl (D.negateFloat hv))
  · exact keeps_fail _ _ hm

theorem keeps_binary (op : Operator) (pos : Position) {a b : Value} (hm : D.Sound m) (ha : D.Fits m a)
    (hb : D.Fits m b) : D.Keeps scope (binary op pos a b) (fun v m' => D.Gives m' v) m := by
  unfold binary
  split
  · rename_i v hv
    exact keeps_pure hm (.inl (D.operator hv ha hb))
  · exact keeps_fail _ _ hm

/-! ## Code -/

mutual

/-- Code that may run keeps everything in order, if the calls it makes do. -/
theorem evaluate_runs (hcall : D.RunsCalls call) (scope : ScopeId) :
    ∀ c, D.Allows c → D.Runs scope (evaluate limits call scope c)
  | .literal l, hc => by
    rw [evaluate]
    exact fun m hm _ => keeps_pure hm (.inl (D.literal m hc))
  | .lookup name, _ => by
    rw [evaluate]
    intro m hm hhome
    refine ⟨⟨hm, D.leads_refl scope m⟩, ?_⟩
    rintro _ ⟨⟩
    exact .inl (D.lookup name hm hhome)
  | .assign name value, hc => by
    rw [evaluate]
    refine (evaluate_runs hcall scope value (D.part hc (by simp [Code.parts]))).andThen fun v m hm hhome hv => ?_
    obtain ⟨hm', hl⟩ := D.bind hc hm hhome hv
    refine ⟨⟨hm', hl⟩, ?_⟩
    rintro _ ⟨⟩
    exact .inl (D.fits_leads hl hv)
  | .binary op pos left right, hc => by
    rw [evaluate]
    have hleft := evaluate_runs hcall scope left (D.part hc (by simp [Code.parts]))
    have hright := evaluate_runs hcall scope right (D.part hc (by simp [Code.parts]))
    refine hleft.andThen fun a m hm hhome ha => (hright m hm hhome).andThen fun b m' hm' hl hb => ?_
    exact keeps_binary op pos hm' (D.fits_leads hl ha) hb
  | .and left right, hc => by
    rw [evaluate]
    have hleft := evaluate_runs hcall scope left (D.part hc (by simp [Code.parts]))
    have hright := evaluate_runs hcall scope right (D.part hc (by simp [Code.parts]))
    refine hleft.andThen fun a m hm hhome ha => keeps_ofTruth hm fun b m' hm' hl => ?_
    cases b with
    | true => exact hright m' hm' (D.home_leads hl hhome)
    | false => exact keeps_pure hm' (.inl (D.fits_leads hl ha))
  | .or left right, hc => by
    rw [evaluate]
    have hleft := evaluate_runs hcall scope left (D.part hc (by simp [Code.parts]))
    have hright := evaluate_runs hcall scope right (D.part hc (by simp [Code.parts]))
    refine hleft.andThen fun a m hm hhome ha => keeps_ofTruth hm fun b m' hm' hl => ?_
    cases b with
    | true => exact keeps_pure hm' (.inl (D.fits_leads hl ha))
    | false => exact hright m' hm' (D.home_leads hl hhome)
  | .not operand, hc => by
    rw [evaluate]
    have hoperand := evaluate_runs hcall scope operand (D.part hc (by simp [Code.parts]))
    refine hoperand.andThen fun a m hm _ _ => keeps_ofTruth hm fun b m' hm' _ => ?_
    exact keeps_pure hm' (.inl (D.bool m' _))
  | .negate pos operand, hc => by
    rw [evaluate]
    have hoperand := evaluate_runs hcall scope operand (D.part hc (by simp [Code.parts]))
    exact hoperand.andThen fun a m hm _ ha => keeps_negate pos hm ha
  | .block statements, hc => by
    rw [evaluate]
    exact fun m hm hhome => evaluateBlock_runs hcall scope statements (fun c h => D.part hc h) m hm hhome (D.nil m)
  | .tuple items, hc => by
    rw [evaluate]
    intro m hm hhome
    refine (evaluateAll_runs hcall scope items (fun c h => D.part hc h) m hm hhome).bind fun r m' hm' _ hr => ?_
    cases r with
    | error signal => exact keeps_pure hm' hr
    | ok vs => exact keeps_pure hm' (.inl (D.tuple hc hr.1 hr.2))
  | .function params body code, hc => by
    rw [evaluate]
    exact fun m hm hhome => keeps_pure hm (.inl (D.function hc hhome))
  | .apply pos callee args, hc => by
    rw [evaluate]
    have hcallee := evaluate_runs hcall scope callee (D.part hc (by simp [Code.parts]))
    have hargs := evaluateAll_runs hcall scope args fun c h => D.part hc (by simp [Code.parts, h])
    refine hcallee.andThen fun v m hm hhome hv => ?_
    split
    · rename_i f
      refine (hargs m hm hhome).bind fun r m' hm' hl hr => ?_
      cases r with
      | error signal => exact keeps_pure hm' hr
      | ok vs =>
        exact (hcall scope f vs (some pos) m' hm' (D.fits_leads hl hv) hr.2).mono (fun _ h => h)
          fun _ _ _ h => h.gives
    · exact keeps_refuse limits pos _ hm
  | .ret operand, hc => by
    rw [evaluate]
    have hoperand := evaluate_runs hcall scope operand (D.part hc (by simp [Code.parts]))
    exact hoperand.andThen fun v m hm _ hv => keeps_pure hm (.inr ⟨.ret, v, rfl, hv⟩)
  | .jump kind, _ => by
    rw [evaluate]
    exact fun m hm _ => keeps_pure hm (.inr ⟨kind, .nil, rfl, D.nil m⟩)

theorem evaluateBlock_runs (hcall : D.RunsCalls call) (scope : ScopeId) {last : Value} :
    ∀ cs, (∀ c ∈ cs, D.Allows c) → ∀ m, D.Sound m → D.Home m scope → D.Fits m last →
      D.Keeps scope (evaluateBlock limits call scope last cs) (fun v m' => D.Gives m' v) m
  | [], _, m, hm, _, hlast => by
    rw [evaluateBlock]
    exact keeps_pure hm (.inl (D.pair (D.bool m true) hlast))
  | c :: cs, hcs, m, hm, hhome, _ => by
    rw [evaluateBlock]
    refine (evaluate_runs hcall scope c (hcs c (by simp)) m hm hhome).andThen fun v m' hm' hl hv => ?_
    exact evaluateBlock_runs hcall scope cs (fun c' h => hcs c' (by simp [h])) m' hm' (D.home_leads hl hhome) hv

theorem evaluateAll_runs (hcall : D.RunsCalls call) (scope : ScopeId) :
    ∀ cs, (∀ c ∈ cs, D.Allows c) → ∀ m, D.Sound m → D.Home m scope →
      D.Keeps scope (evaluateAll limits call scope cs) (fun r m' => D.GivesAll cs.length m' r) m
  | [], _, m, hm, _ => by
    rw [evaluateAll]
    exact keeps_pure hm (by simp [GivesAll])
  | c :: cs, hcs, m, hm, hhome => by
    rw [evaluateAll]
    refine (evaluate_runs hcall scope c (hcs c (by simp)) m hm hhome).bind fun v m₁ hm₁ hl₁ hv => ?_
    split
    · exact keeps_pure hm₁ hv
    · rename_i hflow
      have hrest := evaluateAll_runs hcall scope cs (fun c' h => hcs c' (by simp [h])) m₁ hm₁
        (D.home_leads hl₁ hhome)
      refine hrest.bind fun r m₂ hm₂ hl₂ hr => ?_
      cases r with
      | error signal => exact keeps_pure hm₂ hr
      | ok vs =>
        have hfits : D.Fits m₂ v := D.fits_leads hl₂ (hv.fits (by simpa using hflow))
        exact keeps_pure hm₂ ⟨by simp [hr.1], List.forall_mem_cons.2 ⟨hfits, hr.2⟩⟩

end

/-! ## Calls -/

/-- A call takes the payload out of a return signal; any other signal leaves it. -/
theorem keeps_leave (scope : ScopeId) (hm : D.Sound m) (hv : D.Gives m v) :
    D.Keeps scope (Eval.leave v) (fun v m' => D.Returns m' v) m := by
  unfold Eval.leave
  split
  · exact keeps_pure hm (.inl hv.payload)
  · rename_i kind payload hkind
    obtain ⟨hm', hl⟩ := D.escape scope kind hm hv.payload
    refine ⟨⟨hm', hl⟩, ?_⟩
    rintro _ ⟨⟩
    exact .inr ⟨kind, payload, rfl, hkind, D.fits_leads hl hv.payload⟩
  · -- a body that ends without a signal gives a pair, and the call its second part
    rename_i first last
    exact keeps_pure hm (.inl (D.item (hv.fits rfl) (by simp)))
  · rename_i hflow _
    refine keeps_pure hm (.inl (hv.fits ?_))
    cases v with
    | flow kind payload => exact absurd rfl (hflow kind payload)
    | _ => rfl

theorem call_runs (D : Discipline) (limits : Limits) : ∀ depth, D.RunsCalls (Eval.call limits depth)
  | 0 => by
    intro scope f args pos m hm _ _
    unfold Eval.call
    split
    · exact keeps_fail _ _ hm
    · exact keeps_fail _ _ hm
  | depth + 1 => by
    intro scope f args pos m hm hf hargs
    unfold Eval.call
    split
    · exact keeps_fail _ _ hm
    · rename_i hlength
      obtain ⟨hm₁, hhome⟩ := D.enter hm hf hargs (by simpa using hlength)
      have henter := exec_enter f.scope (f.params.zip args) m
      -- what the body leads to in its own scope, the call leads to in any scope
      have hleave : ∀ m', D.Leads (m.enter f.scope (f.params.zip args)).1 (m.enter f.scope (f.params.zip args)).2 m' →
          D.Leads scope m m' := fun _ h => D.leave h
      generalize m.enter f.scope (f.params.zip args) = e at hm₁ hhome henter hleave
      obtain ⟨id, m₁⟩ := e
      have hbody : D.Runs id (evaluate limits (Eval.call limits depth) id f.code) :=
        evaluate_runs (call_runs D limits depth) id f.code (D.body hf)
      have hrest := Keeps.bind ((hbody m₁ hm₁ hhome).withinCall pos) fun v m₂ hm₂ _ hv => keeps_leave id hm₂ hv
      unfold Keeps Ensures
      rw [exec_bind, henter]
      exact ⟨⟨hrest.1.1, hleave _ hrest.1.2⟩, hrest.2⟩

/-! ## Every moment of a run -/

/-- What has to be in order for a task to start: for code, its scope, for a call, the function and its
arguments. -/
def Admits (D : Discipline) : Moment → Prop
  | ⟨.code _ scope c, m⟩ => D.Sound m ∧ D.Home m scope ∧ D.Allows c
  | ⟨.call _ f args _, m⟩ => D.Sound m ∧ D.Fits m (.fn f) ∧ ∀ v ∈ args, D.Fits m v

variable {t t' : Moment}

theorem Admits.sound (h : D.Admits t) : D.Sound t.machine := by
  obtain ⟨task, m⟩ := t
  cases task with
  | code => exact h.1
  | call => exact h.1

/-- What code leaves and gives. -/
theorem Admits.keeps_code {depth : Nat} {c : Code} (h : D.Admits ⟨.code depth scope c, m⟩) (limits : Limits) :
    D.Keeps scope (evaluate limits (Eval.call limits depth) scope c) (fun v m' => D.Gives m' v) m :=
  evaluate_runs (D.call_runs limits depth) scope c h.2.2 m h.1 h.2.1

/-- What a call leaves and gives. -/
theorem Admits.keeps_call {depth : Nat} {f : Function} {args : List Value} {pos : Option Position}
    (h : D.Admits ⟨.call depth f args pos, m⟩) (limits : Limits) (scope : ScopeId) :
    D.Keeps scope (Eval.call limits depth f args pos) (fun v m' => D.Returns m' v) m :=
  D.call_runs limits depth scope f args pos m h.1 h.2.1 h.2.2

theorem Admits.outcome (h : D.Admits t) (limits : Limits) : D.Sound (t.outcome limits).2 ∧
    ∀ v, (t.outcome limits).1 = .ok v → D.Gives (t.outcome limits).2 v := by
  obtain ⟨task, m⟩ := t
  cases task with
  | code depth scope c =>
    have hcode := h.keeps_code limits
    exact ⟨hcode.1.1, hcode.2⟩
  | call depth f args pos =>
    have hcall := h.keeps_call limits 0
    exact ⟨hcall.1.1, fun v hv => (hcall.2 v hv).gives⟩

/-- Code that gave a value left everything in order behind it. -/
theorem Admits.after {depth : Nat} {c : Code} {m' : Machine} (h : D.Admits ⟨.code depth scope c, m⟩)
    (ho : Moment.outcome limits ⟨.code depth scope c, m⟩ = (.ok v, m')) :
    D.Sound m' ∧ D.Leads scope m m' ∧ D.Gives m' v := by
  have hc := h.keeps_code limits
  unfold Keeps Ensures at hc
  have ho : exec (evaluate limits (Eval.call limits depth) scope c) m = (.ok v, m') := ho
  rw [ho] at hc
  exact ⟨hc.1.1, hc.1.2, hc.2 v rfl⟩

theorem passes {depth : Nat} {cs : List Code} {m' : Machine} (h : Task.Passes limits depth scope cs m m')
    (hm : D.Sound m) (hhome : D.Home m scope) (hcs : ∀ c ∈ cs, D.Allows c) : D.Sound m' ∧ D.Leads scope m m' := by
  induction h with
  | nil => exact ⟨hm, D.leads_refl _ _⟩
  | @cons c cs m m₁ m₂ v hc _ _ ih =>
    have hadmits : D.Admits ⟨.code depth scope c, m⟩ := ⟨hm, hhome, hcs c (by simp)⟩
    obtain ⟨hm₁, hl₁, -⟩ := hadmits.after hc
    obtain ⟨hm₂, hl₂⟩ := ih hm₁ (D.home_leads hl₁ hhome) fun c' h => hcs c' (by simp [h])
    exact ⟨hm₂, D.leads_trans hl₁ hl₂⟩

/-- A part of code that starts after other parts of it. -/
theorem Admits.next {depth : Nat} {c c' : Code} {m' : Machine} (h : D.Admits ⟨.code depth scope c, m⟩)
    (hc : c' ∈ c.parts) (hm' : D.Sound m') (hl : D.Leads scope m m') : D.Admits ⟨.code depth scope c', m'⟩ :=
  ⟨hm', D.home_leads hl h.2.1, D.part h.2.2 hc⟩

theorem Admits.part {depth : Nat} {c c' : Code} (h : D.Admits ⟨.code depth scope c, m⟩) (hc : c' ∈ c.parts) :
    D.Admits ⟨.code depth scope c', m⟩ := h.next hc h.1 (D.leads_refl _ _)

/-- Whatever is started while everything is in order starts with everything in order. -/
theorem Admits.starts (ht : D.Admits t) (h : Moment.Starts limits t t') : D.Admits t' := by
  -- code that comes first on the same machine, code that comes after other code of the same scope, a
  -- call after its callee and arguments, and the body of a call
  cases h with
  | first h => exact ht.part (Code.first?_mem h)
  | second h =>
    obtain ⟨hm, hl, -⟩ := (ht.part (by simp [Code.parts])).after h
    exact ht.next (by simp [Code.parts]) hm hl
  | andSecond h =>
    obtain ⟨hm, hl, -⟩ := (ht.part (by simp [Code.parts])).after h
    exact ht.next (by simp [Code.parts]) hm hl
  | orSecond h =>
    obtain ⟨hm, hl, -⟩ := (ht.part (by simp [Code.parts])).after h
    exact ht.next (by simp [Code.parts]) hm hl
  | statement h =>
    obtain ⟨hm, hl⟩ := passes h ht.1 ht.2.1 fun c hc => D.part ht.2.2 (by simp [Code.parts, hc])
    exact ht.next (by simp [Code.parts]) hm hl
  | item h =>
    obtain ⟨hm, hl⟩ := passes h ht.1 ht.2.1 fun c hc => D.part ht.2.2 (by simp [Code.parts, hc])
    exact ht.next (by simp [Code.parts]) hm hl
  | argument hf h =>
    obtain ⟨hm, hl, -⟩ := (ht.part (by simp [Code.parts])).after hf
    obtain ⟨hm', hl'⟩ := passes h hm (D.home_leads hl ht.2.1) fun c hc => D.part ht.2.2 (by simp [Code.parts, hc])
    exact ht.next (by simp [Code.parts]) hm' (D.leads_trans hl hl')
  | @call depth scope pos callee f args vs m m' m'' hf h =>
    obtain ⟨hm, hl, hv⟩ := (ht.part (by simp [Code.parts])).after hf
    have hargs : D.Keeps scope (evaluateAll limits (Eval.call limits depth) scope args)
        (fun r m' => D.GivesAll args.length m' r) m' :=
      evaluateAll_runs (D.call_runs limits depth) scope args (fun c hc => D.part ht.2.2 (by simp [Code.parts, hc]))
        m' hm (D.home_leads hl ht.2.1)
    unfold Keeps Ensures at hargs
    rw [h] at hargs
    exact ⟨hargs.1.1, D.fits_leads hargs.1.2 (hv.fits rfl), (hargs.2 _ rfl).2⟩
  | body h =>
    obtain ⟨hm, hhome⟩ := D.enter ht.1 ht.2.1 ht.2.2 h
    exact ⟨hm, hhome, D.body ht.2.1⟩

/-- So does everything in the course of a run. -/
theorem Admits.during (ht : D.Admits t) (h : Moment.During limits t t') : D.Admits t' := by
  induction h with
  | refl => exact ht
  | tail _ h ih => exact ih.starts h

end Discipline

/-! ## Sources one after the other -/

/-- The first moment of the run of a program. -/
def Program.start (limits : Limits) (p : Program) (scope : ScopeId) (m : Machine) : Moment :=
  ⟨.code limits.calls scope p.code, m⟩

theorem Program.finish_store (x : Eval Value) (pos : Position) (m : Machine) :
    (finish x pos m).2 = (Eval.exec x m).2 := by
  unfold finish
  split <;> rename_i h <;> rw [h]

theorem Program.finish_eq_ok {x : Eval Value} {pos : Position} {m : Machine} {v : Value}
    (h : (finish x pos m).1 = .ok v) : (Eval.exec x m).1 = .ok v := by
  unfold finish at h
  split at h
  · rename_i hx; cases h; rw [hx]
  · cases h
  · cases h

section

variable {limits : Limits} {source text : Text} {root : Node} {f : Fault}

theorem Program.compile_eq_ok {p : Program} (h : compile limits root = .ok p) :
    p.root = root ∧ Code.compile limits root = .ok p.code := by
  unfold compile at h
  cases hc : Code.compile limits root with
  | error e => rw [hc] at h; cases h
  | ok code => rw [hc] at h; cases h; exact ⟨rfl, rfl⟩

theorem Program.compile_eq_error (h : compile limits root = .error f) : Code.compile limits root = .error f := by
  unfold compile at h
  cases hc : Code.compile limits root with
  | error e => rw [hc] at h; cases h; rfl
  | ok code => rw [hc] at h; cases h

theorem run_of_parse_error (h : (parse limits source text).result = .error f) (scope : ScopeId) (m : Machine) :
    (run limits source text scope m).result = .error f ∧ (run limits source text scope m).machine = m := by
  simp [run, h]

theorem run_of_compile_error (hroot : (parse limits source text).result = .ok root)
    (h : Program.compile limits root = .error f) (scope : ScopeId) (m : Machine) :
    (run limits source text scope m).result = .error f ∧ (run limits source text scope m).machine = m := by
  simp [run, hroot, h]

theorem run_of_compile {p : Program} (hroot : (parse limits source text).result = .ok root)
    (hp : Program.compile limits root = .ok p) (scope : ScopeId) (m : Machine) :
    (run limits source text scope m).result = (p.invoke limits scope m).1 ∧
      (run limits source text scope m).machine = (p.invoke limits scope m).2 := by
  simp [run, hroot, hp]

end

/-- The machine after a run is the one that its program left, if there was one. -/
theorem run_machine (limits : Limits) (source text : Text) (scope : ScopeId) (m : Machine) :
    (run limits source text scope m).machine = m ∨
      ∃ root p, (parse limits source text).result = .ok root ∧ Program.compile limits root = .ok p ∧
        (run limits source text scope m).machine = ((p.start limits scope m).outcome limits).2 := by
  cases hroot : (parse limits source text).result with
  | error f => exact .inl (run_of_parse_error hroot scope m).2
  | ok root =>
    cases hp : Program.compile limits root with
    | error f => exact .inl (run_of_compile_error hroot hp scope m).2
    | ok p =>
      refine .inr ⟨root, p, rfl, hp, (run_of_compile hroot hp scope m).2.trans ?_⟩
      exact Program.finish_store _ _ _

/-- A program that a source was parsed and compiled to. -/
structure Program.FromSource (limits : Limits) (root : Node) (p : Program) : Prop where
  parsed : ∃ source text, (parse limits source text).result = .ok root
  compiled : Program.compile limits root = .ok p

/-- The machine after running sources, each with its name, one after the other in one scope. -/
def runAll (limits : Limits) (scope : ScopeId) (m : Machine) (sources : List (Text × Text)) : Machine :=
  sources.foldl (fun m source => (run limits source.1 source.2 scope m).machine) m

/-- The machine after running sources, each with its name in a scope of its own, one after the other. -/
def runEach (limits : Limits) (m : Machine) (sources : List (ScopeId × Text × Text)) : Machine :=
  sources.foldl (fun m source => (run limits source.2.1 source.2.2 source.1 m).machine) m

namespace Discipline

variable {D : Discipline} {limits : Limits} {scope : ScopeId} {m : Machine}

/-- If the program of a source may run, a run of the source keeps everything in order. -/
theorem run_sound_of {source text : Text}
    (hD : ∀ root p, (parse limits source text).result = .ok root → Program.compile limits root = .ok p → D.Allows p.code)
    (hm : D.Sound m) (hhome : D.Home m scope) :
    D.Sound (run limits source text scope m).machine ∧ D.Leads scope m (run limits source text scope m).machine := by
  rcases run_machine limits source text scope m with he | ⟨root, p, hroot, hp, he⟩
  · rw [he]
    exact ⟨hm, D.leads_refl _ _⟩
  · have hstart : D.Admits (p.start limits scope m) := ⟨hm, hhome, hD root p hroot hp⟩
    rw [he]
    exact (hstart.keeps_code limits).1

/-- If all programs of sources may run, a run of a source keeps everything in order. -/
theorem run_sound (hD : ∀ root p, Program.FromSource limits root p → D.Allows p.code) (hm : D.Sound m)
    (hhome : D.Home m scope) (source text : Text) :
    D.Sound (run limits source text scope m).machine ∧ D.Leads scope m (run limits source text scope m).machine :=
  run_sound_of (fun root p hroot hp => hD root p ⟨⟨source, text, hroot⟩, hp⟩) hm hhome

/-- If the programs of some sources may run, running them one after the other keeps everything in order. -/
theorem runAll_sound_of {sources : List (Text × Text)}
    (hD : ∀ s ∈ sources, ∀ root p, (parse limits s.1 s.2).result = .ok root → Program.compile limits root = .ok p →
      D.Allows p.code) (hm : D.Sound m) (hhome : D.Home m scope) :
    D.Sound (runAll limits scope m sources) ∧ D.Home (runAll limits scope m sources) scope := by
  induction sources generalizing m with
  | nil => exact ⟨hm, hhome⟩
  | cons source rest ih =>
    obtain ⟨hm', hl⟩ := run_sound_of (hD source (by simp)) hm hhome
    exact ih (fun s hs => hD s (by simp [hs])) hm' (D.home_leads hl hhome)

theorem runAll_sound (hD : ∀ root p, Program.FromSource limits root p → D.Allows p.code) (hm : D.Sound m)
    (hhome : D.Home m scope) (sources : List (Text × Text)) :
    D.Sound (runAll limits scope m sources) ∧ D.Home (runAll limits scope m sources) scope :=
  runAll_sound_of (fun s _ root p hroot hp => hD root p ⟨⟨s.1, s.2, hroot⟩, hp⟩) hm hhome

/-- Where code may run in any scope, so it is with sources that run in different ones. -/
theorem runEach_sound (hD : ∀ root p, Program.FromSource limits root p → D.Allows p.code)
    (hhome : ∀ m scope, D.Home m scope) (hm : D.Sound m) (sources : List (ScopeId × Text × Text)) :
    D.Sound (runEach limits m sources) := by
  induction sources generalizing m with
  | nil => exact hm
  | cons source rest ih => exact ih (run_sound hD hm (hhome m source.1) source.2.1 source.2.2).1

end Discipline

end Kettle
