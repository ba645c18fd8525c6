/-
Computations step by step: what each primitive computation and each way of putting computations
together gives on a machine, and from that the rules by which a property of the machine is carried
through a computation, whatever its outcome.
-/
import Kettle.Eval
import Mathlib.Tactic.Common

namespace Kettle

/-! ## What operators give -/

/-- Whether a value is no tuple, no function and no signal. -/
def Value.isScalar : Value → Bool
  | tuple _ | fn _ | flow .. => false
  | _ => true

namespace Operator

variable {op : Operator} {v : Value}

theorem onInts_scalar {a b : Int} (h : op.onInts a b = .ok v) : v.isScalar = true := by
  cases op with
  | arithmetic o =>
    cases hn : o.onInts a b with
    | error e => simp [onInts, hn, Except.map] at h
    | ok n =>
      obtain rfl : Value.int n = v := by simpa [onInts, hn, Except.map] using h
      rfl
  | comparison c => cases h; rfl

theorem onFloats?_scalar {a b : Float} (h : op.onFloats? a b = some v) : v.isScalar = true := by
  cases op with
  | arithmetic o => obtain ⟨x, -, rfl⟩ := Option.map_eq_some_iff.1 h; rfl
  | comparison c => cases h; rfl

theorem onTexts?_scalar {a b : Text} (h : op.onTexts? a b = some v) : v.isScalar = true := by
  cases op with
  | arithmetic o => obtain ⟨t, -, rfl⟩ := Option.map_eq_some_iff.1 h; rfl
  | comparison c => cases h; rfl

theorem apply_scalar {a b : Value} (h : op.apply a b = .ok v) : v.isScalar = true := by
  unfold apply at h
  split at h
  · exact onInts_scalar h
  · split at h
    · rename_i w hw
      cases h
      unfold onMixed? at hw
      split at hw
      · exact onFloats?_scalar hw
      · exact onFloats?_scalar hw
      · exact onFloats?_scalar hw
      · exact onTexts?_scalar hw
      · cases hw
    · cases h

end Operator

namespace Eval

variable {α β : Type} {m : Machine}

/-! ## What computations give -/

@[simp] theorem exec_pure (a : α) (m : Machine) : exec (pure a : Eval α) m = (.ok a, m) := rfl

theorem exec_bind (x : Eval α) (f : α → Eval β) (m : Machine) :
    exec (x >>= f) m = match exec x m with
      | (.ok a, m') => exec (f a) m'
      | (.error e, m') => (.error e, m') := by
  show (StateT.run (ExceptT.run (x >>= f)) m) = _
  rw [ExceptT.run_bind, StateT.run_bind]
  unfold exec
  rcases hx : StateT.run (ExceptT.run x) m with ⟨r, m'⟩
  cases r with
  | ok a => rfl
  | error e => rfl

theorem exec_andThen (x : Eval Value) (f : Value → Eval Value) (m : Machine) :
    exec (andThen x f) m = match exec x m with
      | (.ok v, m') => if v.isFlow then (.ok v, m') else exec (f v) m'
      | (.error e, m') => (.error e, m') := by
  unfold andThen
  rw [exec_bind]
  rcases exec x m with ⟨r, m'⟩
  cases r with
  | ok v => cases h : v.isFlow <;> simp [h]
  | error e => rfl

@[simp] theorem exec_lookup (scope : ScopeId) (name : Text) (m : Machine) :
    exec (lookup scope name) m = (.ok (m.store.lookup scope name), m) := rfl

@[simp] theorem exec_bindName (scope : ScopeId) (name : Text) (v : Value) (m : Machine) :
    exec (Eval.bind scope name v) m = (.ok v, m.bind scope name v) := rfl

@[simp] theorem exec_enter (parent : ScopeId) (bindings : List (Text × Value)) (m : Machine) :
    exec (enter parent bindings) m = (.ok (m.enter parent bindings).1, (m.enter parent bindings).2) := rfl

theorem exec_withinCall (pos : Option Position) (x : Eval Value) (m : Machine) :
    exec (withinCall pos x) m = match exec x m with
      | (.error .overflow, m') => (.error (.fault .callDepth pos), m')
      | r => r := by
  show (StateT.run (ExceptT.run (tryCatch x _)) m) = _
  rw [ExceptT.run_tryCatch, StateT.run_bind]
  unfold exec
  rcases StateT.run (ExceptT.run x) m with ⟨r, m'⟩
  cases r with
  | ok a => rfl
  | error e => cases e <;> rfl

/-! ## Properties of the machine that a computation keeps -/

/-- On the machine `m` the computation leaves a machine with the property `I`, and where it gives a
value, the value has the property `Q`. -/
def Ensures (I : Machine → Prop) (x : Eval α) (Q : α → Machine → Prop) (m : Machine) : Prop :=
  I (exec x m).2 ∧ ∀ a, (exec x m).1 = .ok a → Q a (exec x m).2

variable {I : Machine → Prop} {Q : α → Machine → Prop} {R : β → Machine → Prop}

theorem ensures_pure {a : α} (hm : I m) (ha : Q a m) : Ensures I (pure a) Q m :=
  ⟨hm, by rintro _ ⟨⟩; exact ha⟩

theorem ensures_throw (e : Stop) (hm : I m) : Ensures I (throw e) Q m := ⟨hm, by rintro _ ⟨⟩⟩

theorem ensures_fail (cause : RuntimeCause) (pos : Option Position) (hm : I m) :
    Ensures I (fail cause pos) Q m := ensures_throw _ hm

theorem Ensures.bind {x : Eval α} {f : α → Eval β} (hx : Ensures I x Q m)
    (hf : ∀ a m', I m' → Q a m' → Ensures I (f a) R m') : Ensures I (x >>= f) R m := by
  obtain ⟨hI, hQ⟩ := hx
  unfold Ensures
  rw [exec_bind]
  rcases hr : exec x m with ⟨r, m'⟩
  rw [hr] at hI hQ
  cases r with
  | ok a => exact hf a m' hI (hQ a rfl)
  | error e => exact ⟨hI, by rintro _ ⟨⟩⟩

theorem Ensures.withinCall {x : Eval Value} {Q : Value → Machine → Prop} (pos : Option Position)
    (hx : Ensures I x Q m) : Ensures I (Eval.withinCall pos x) Q m := by
  obtain ⟨hI, hQ⟩ := hx
  unfold Ensures
  rw [exec_withinCall]
  split
  · rename_i m' he
    rw [he] at hI
    exact ⟨hI, by rintro _ ⟨⟩⟩
  · exact ⟨hI, hQ⟩

theorem Ensures.mono {x : Eval α} {J : Machine → Prop} {Q' : α → Machine → Prop} (hx : Ensures I x Q m)
    (hI : ∀ m', I m' → J m') (hQ : ∀ a m', I m' → Q a m' → Q' a m') : Ensures J x Q' m :=
  ⟨hI _ hx.1, fun a ha => hQ a _ hx.1 (hx.2 a ha)⟩

theorem ensures_truth (limits : Limits) (v : Value) {Q : Bool → Machine → Prop} (hm : I m)
    (hQ : ∀ b, v.truth? limits.tuples = some b → Q b m) : Ensures I (truth limits v) Q m := by
  unfold truth
  split
  · rename_i b hb; exact ensures_pure hm (hQ b hb)
  · exact ensures_throw _ hm

theorem ensures_refuse (limits : Limits) (pos : Position) (v : Value) {Q : Value → Machine → Prop} (hm : I m) :
    Ensures I (refuse limits pos v) Q m := by
  unfold refuse
  split
  · exact ensures_fail _ _ hm
  · exact ensures_throw _ hm

end Eval

end Kettle
