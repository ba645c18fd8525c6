/-
Room for calls. A run sees nothing of how many calls may be inside one another, except that it stops
where there is no room for one more. So with more room it ends in the same way, if it did not stop for
lack of it.
-/
import Kettle.Proofs.Eval.Exec
import Kettle.Program

namespace Kettle

namespace Eval

variable {α β : Type} {limits limits' : Limits}

/-- The second computation does what the first one does, unless the first one finds no room for a call. -/
def Extends (x x' : Eval α) : Prop :=
  ∀ m, (∃ pos m', exec x m = (.error (.fault .callDepth pos), m')) ∨ exec x' m = exec x m

/-! ## Computations -/

theorem Extends.refl (x : Eval α) : Extends x x := fun _ => .inr rfl

theorem extends_of_eq {x x' : Eval α} (h : x' = x) : Extends x x' := h ▸ .refl x'

theorem Extends.bind {x x' : Eval α} {f f' : α → Eval β} (hx : Extends x x') (hf : ∀ a, Extends (f a) (f' a)) :
    Extends (x >>= f) (x' >>= f') := by
  intro m
  rcases hx m with ⟨pos, m', hstop⟩ | hsame
  · exact .inl ⟨pos, m', by rw [exec_bind, hstop]⟩
  · rw [exec_bind, exec_bind, hsame]
    rcases exec x m with ⟨r, m'⟩
    cases r with
    | ok a => exact hf a m'
    | error e => exact .inr rfl

theorem Extends.andThen {x x' : Eval Value} {f f' : Value → Eval Value} (hx : Extends x x')
    (hf : ∀ v, Extends (f v) (f' v)) : Extends (andThen x f) (andThen x' f') := by
  refine hx.bind fun v => ?_
  split
  · exact .refl _
  · exact hf v

/-- An overflow becomes a lack of room in both computations, and a lack of room stays one. -/
theorem Extends.withinCall {x x' : Eval Value} (pos : Option Position) (hx : Extends x x') :
    Extends (withinCall pos x) (withinCall pos x') := by
  intro m
  rcases hx m with ⟨pos', m', hstop⟩ | hsame
  · exact .inl ⟨pos', m', by rw [exec_withinCall, hstop]⟩
  · exact .inr (by rw [exec_withinCall, exec_withinCall, hsame])

/-- Limits that agree on how deep values may be. -/
def SameReach (limits limits' : Limits) : Prop := limits'.tuples = limits.tuples ∧ limits'.nodes = limits.nodes

theorem truth_congr (h : SameReach limits limits') (v : Value) : truth limits' v = truth limits v := by
  unfold truth
  rw [h.1]

theorem refuse_congr (h : SameReach limits limits') (pos : Position) (v : Value) :
    refuse limits' pos v = refuse limits pos v := by
  unfold refuse
  rw [h.2]

/-! ## Code -/

/-- A way of making calls that does what another one does, unless that one finds no room for a call. -/
def ExtendsCalls (call call' : Caller) : Prop := ∀ f args pos, Extends (call f args pos) (call' f args pos)

variable {call call' : Caller}

mutual

/-- Code sees nothing of how calls are made but what they give. -/
theorem evaluate_extends (ht : SameReach limits limits') (hcall : ExtendsCalls call call') (scope : ScopeId) :
    ∀ c, Extends (evaluate limits call scope c) (evaluate limits' call' scope c)
  | .literal l => by
    rw [evaluate, evaluate]
    exact .refl _
  | .lookup name => by
    rw [evaluate, evaluate]
    exact .refl _
  | .assign name value => by
    rw [evaluate, evaluate]
    exact (evaluate_extends ht hcall scope value).andThen fun v => .refl _
  | .binary op pos left right => by
    rw [evaluate, evaluate]
    exact (evaluate_extends ht hcall scope left).andThen fun a => (evaluate_extends ht hcall scope right).andThen fun b => .refl _
  | .and left right => by
    rw [evaluate, evaluate]
    refine (evaluate_extends ht hcall scope left).andThen fun a => (extends_of_eq (truth_congr ht a)).bind fun b => ?_
    cases b with
    | true => exact evaluate_extends ht hcall scope right
    | false => exact .refl _
  | .or left right => by
    rw [evaluate, evaluate]
    refine (evaluate_extends ht hcall scope left).andThen fun a => (extends_of_eq (truth_congr ht a)).bind fun b => ?_
    cases b with
    | true => exact .refl _
    | false => exact evaluate_extends ht hcall scope right
  | .not operand => by
    rw [evaluate, evaluate]
    exact (evaluate_extends ht hcall scope operand).andThen fun a => (extends_of_eq (truth_congr ht a)).bind fun b => .refl _
  | .negate pos operand => by
    rw [evaluate, evaluate]
    exact (evaluate_extends ht hcall scope operand).andThen fun a => .refl _
  | .block statements => by
    rw [evaluate, evaluate]
    exact evaluateBlock_extends ht hcall scope .nil statements
  | .tuple items => by
    rw [evaluate, evaluate]
    exact (evaluateAll_extends ht hcall scope items).bind fun r => .refl _
  | .function params body code => by
    rw [evaluate, evaluate]
    exact .refl _
  | .apply pos callee args => by
    rw [evaluate, evaluate]
    refine (evaluate_extends ht hcall scope callee).andThen fun v => ?_
    split
    · rename_i f
      refine (evaluateAll_extends ht hcall scope args).bind fun r => ?_
      cases r with
      | error signal => exact .refl _
      | ok vs => exact hcall f vs (some pos)
    · exact extends_of_eq (refuse_congr ht pos v)
  | .ret operand => by
    rw [evaluate, evaluate]
    exact (evaluate_extends ht hcall scope operand).andThen fun v => .refl _
  | .jump kind => by
    rw [evaluate, evaluate]
    exact .refl _

theorem evaluateBlock_extends (ht : SameReach limits limits') (hcall : ExtendsCalls call call')
    (scope : ScopeId) (last : Value) : ∀ cs,
    Extends (evaluateBlock limits call scope last cs) (evaluateBlock limits' call' scope last cs)
  | [] => by
    rw [evaluateBlock, evaluateBlock]
    exact .refl _
  | c :: cs => by
    rw [evaluateBlock, evaluateBlock]
    exact (evaluate_extends ht hcall scope c).andThen fun v => evaluateBlock_extends ht hcall scope v cs

theorem evaluateAll_extends (ht : SameReach limits limits') (hcall : ExtendsCalls call call')
    (scope : ScopeId) : ∀ cs,
    Extends (evaluateAll limits call scope cs) (evaluateAll limits' call' scope cs)
  | [] => by
    rw [evaluateAll, evaluateAll]
    exact .refl _
  | c :: cs => by
    rw [evaluateAll, evaluateAll]
    refine (evaluate_extends ht hcall scope c).bind fun v => ?_
    split
    · exact .refl _
    · exact (evaluateAll_extends ht hcall scope cs).bind fun r => .refl _

end

/-- With room for more calls a call does the same, unless it found no room. -/
theorem call_extends (ht : SameReach limits limits') : ∀ {depth depth' : Nat}, depth ≤ depth' →
    ExtendsCalls (Eval.call limits depth) (Eval.call limits' depth')
  | 0, depth', _ => by
    intro f args pos m
    unfold Eval.call
    by_cases hlength : args.length ≠ f.params.length
    · rw [if_pos hlength, if_pos hlength]
      exact .inr rfl
    · rw [if_neg hlength]
      exact .inl ⟨pos, m, rfl⟩
  | depth + 1, 0, h => absurd h (by omega)
  | depth + 1, depth' + 1, h => by
    intro f args pos
    have hcalls : ExtendsCalls (Eval.call limits depth) (Eval.call limits' depth') := call_extends ht (by omega)
    unfold Eval.call
    by_cases hlength : args.length ≠ f.params.length
    · rw [if_pos hlength, if_pos hlength]
      exact .refl _
    · rw [if_neg hlength, if_neg hlength]
      refine (Extends.refl _).bind fun scope => ?_
      exact ((evaluate_extends ht hcalls scope f.code).withinCall pos).bind fun v => .refl _

end Eval

/-- A program that does not stop for lack of room for calls ends in the same way, on the same machine, with
room for more of them. -/
theorem invoke_with_more_calls (limits : Limits) {depth depth' : Nat} (hdepth : depth ≤ depth') (p : Program)
    (scope : ScopeId) (m : Machine)
    (h : ∀ pos, (p.invoke { limits with calls := depth } scope m).1 ≠ .error (.runtime .callDepth pos)) :
    p.invoke { limits with calls := depth' } scope m = p.invoke { limits with calls := depth } scope m := by
  have ht : Eval.SameReach { limits with calls := depth } { limits with calls := depth' } := ⟨rfl, rfl⟩
  have hcode := Eval.evaluate_extends ht (Eval.call_extends ht hdepth) scope p.code m
  unfold Program.invoke Program.finish at h ⊢
  rcases hcode with ⟨pos, m', hstop⟩ | hsame
  · rw [hstop] at h
    exact absurd rfl (h pos)
  · rw [hsame]

/-- A call inside a call ends in the same way whether there is room for two calls or for more, though not
with room for one. -/
theorem invoke_with_more_calls_nested :
    let pos : Position := .start []
    let body : Node := ⟨.lbrace, "\x7b", [], true, pos⟩
    let inner : Code := .apply pos (.function [] body (.block [.literal (.int 1)])) []
    let p : Program := ⟨body, .block [.apply pos (.function ["x"] body (.block [inner])) [.literal .nil]]⟩
    (p.invoke ⟨600, 2500, 1, 9000, 4300⟩ 0 .initial).1 = .error (.runtime .callDepth (some pos)) ∧
    (p.invoke ⟨600, 2500, 2, 9000, 4300⟩ 0 .initial).1 = .ok (.tuple [.bool true, .int 1]) ∧
    p.invoke ⟨600, 2500, 1500, 9000, 4300⟩ 0 .initial = p.invoke ⟨600, 2500, 2, 9000, 4300⟩ 0 .initial := by
  intro pos body inner p
  have hvalue : (p.invoke ⟨600, 2500, 2, 9000, 4300⟩ 0 .initial).1 = .ok (.tuple [.bool true, .int 1]) := by rfl
  refine ⟨by rfl, hvalue, invoke_with_more_calls .standard (by decide) p 0 .initial fun pos h => ?_⟩
  cases hvalue.symm.trans h

end Kettle
