/-
Running does not depend on positions. Moved code on a machine whose functions are moved in the same way
gives moved values and moved faults. Positions are only ever handed on; no computation looks at one.
-/
import Kettle.Proofs.Code.Relocate
import Kettle.Proofs.Eval.Exec

namespace Kettle

/-! ## Moved values and machines -/

/-- The function with all positions moved. -/
def Function.relocate (φ : Position → Position) (f : Function) : Function :=
  ⟨f.params, f.body.relocate φ, f.code.relocate φ, f.scope⟩

namespace Value

mutual

/-- The value with the positions in its functions moved. -/
def relocate (φ : Position → Position) : Value → Value
  | tuple items => tuple (relocateAll φ items)
  | fn f => fn (f.relocate φ)
  | flow kind payload => flow kind (relocate φ payload)
  | v => v

/-- Several values with the positions in their functions moved. -/
def relocateAll (φ : Position → Position) : List Value → List Value
  | [] => []
  | v :: vs => relocate φ v :: relocateAll φ vs

end

variable (φ : Position → Position)

theorem relocateAll_eq (vs : List Value) : relocateAll φ vs = vs.map (relocate φ) := by
  induction vs with
  | nil => rfl
  | cons v vs ih => rw [relocateAll, ih]; rfl

@[simp] theorem isFlow_relocate (v : Value) : (v.relocate φ).isFlow = v.isFlow := by cases v <;> rfl

theorem typeName_relocate (v : Value) : (v.relocate φ).typeName = v.typeName := by cases v <;> rfl

mutual

theorem shown_relocate : ∀ v : Value, (v.relocate φ).shown = v.shown
  | nil => rfl
  | bool _ => rfl
  | int _ => rfl
  | float _ => rfl
  | str _ => rfl
  | tuple items => by rw [relocate, shown, shown, shownAll_relocate items]
  | fn f => rfl
  | flow kind nil => rfl
  | flow kind (bool _) => rfl
  | flow kind (int _) => rfl
  | flow kind (float _) => rfl
  | flow kind (str _) => rfl
  | flow kind (tuple items) => by
    have := shown_relocate (tuple items)
    simp only [relocate, shown] at this ⊢
    rw [this]
  | flow kind (fn f) => rfl
  | flow kind (flow kind' payload) => by
    have := shown_relocate (flow kind' payload)
    simp only [relocate, shown] at this ⊢
    rw [this]

theorem shownAll_relocate : ∀ vs : List Value, shownAll (relocateAll φ vs) = shownAll vs
  | [] => rfl
  | v :: vs => by rw [relocateAll, shownAll, shownAll, shown_relocate v, shownAll_relocate vs]

end

mutual

theorem depth_relocate : ∀ v : Value, (v.relocate φ).depth = v.depth
  | nil | bool _ | int _ | float _ | str _ | fn _ => rfl
  | tuple items => by rw [relocate, depth, depth, depthAll_relocate items]
  | flow kind payload => by rw [relocate, depth, depth, depth_relocate payload]

theorem depthAll_relocate : ∀ vs : List Value, depthAll (relocateAll φ vs) = depthAll vs
  | [] => rfl
  | v :: vs => by rw [relocateAll, depthAll, depthAll, depth_relocate v, depthAll_relocate vs]

end

theorem shown?_relocate (limit : Nat) (v : Value) : (v.relocate φ).shown? limit = v.shown? limit := by
  rw [shown?, shown?, depth_relocate, shown_relocate]

theorem truth?_relocate : ∀ (depth : Nat) (v : Value), (v.relocate φ).truth? depth = v.truth? depth
  | 0, v => by
    cases v with
    | tuple items => cases items <;> rfl
    | _ => rfl
  | depth + 1, v => by
    cases v with
    | tuple items =>
      cases items with
      | nil => rfl
      | cons first rest => exact truth?_relocate depth first
    | _ => rfl

end Value

theorem Value.relocate_of_scalar {φ : Position → Position} {v : Value} (h : v.isScalar = true) : v.relocate φ = v := by
  cases v <;> first | rfl | cases h

/-- Operators look at no functions. -/
theorem Operator.apply_relocate (φ : Position → Position) (op : Operator) (a b : Value) :
    op.apply (a.relocate φ) (b.relocate φ) = op.apply a b := by
  cases a <;> cases b <;> rfl

namespace Scope

variable (φ : Position → Position)

/-- The scope with the positions in its values moved. -/
def relocate (s : Scope) : Scope := ⟨s.parent, s.bindings.map fun b => (b.1, b.2.relocate φ)⟩

theorem set_relocate (s : Scope) (name : Text) (v : Value) :
    (s.relocate φ).set name (v.relocate φ) = (s.set name v).relocate φ := by
  have hset : ∀ bs : List (Text × Value), setIn name (v.relocate φ) (bs.map fun b => (b.1, b.2.relocate φ)) =
      (setIn name v bs).map fun b => (b.1, b.2.relocate φ) := by
    intro bs
    induction bs with
    | nil => rfl
    | cons b bs ih =>
      obtain ⟨n, w⟩ := b
      simp only [List.map_cons, setIn]
      split
      · rfl
      · rw [ih]; rfl
  simp [set, relocate, hset]

theorem get?_relocate (s : Scope) (name : Text) :
    (s.relocate φ).get? name = (s.get? name).map (Value.relocate φ) := by
  obtain ⟨parent, bs⟩ := s
  unfold get? relocate
  simp only
  induction bs with
  | nil => rfl
  | cons b bs ih =>
    rw [List.map_cons, List.lookup_cons, List.lookup_cons]
    cases name == b.1 with
    | true => rfl
    | false => exact ih

end Scope

namespace Store

variable (φ : Position → Position)

/-- The store with the positions in its values moved. -/
def relocate (s : Store) : Store := ⟨s.scopes.map (Scope.relocate φ)⟩

theorem get?_relocate (s : Store) (id : ScopeId) : (s.relocate φ).get? id = (s.get? id).map (Scope.relocate φ) := by
  simp [get?, relocate]

theorem bind_relocate (s : Store) (id : ScopeId) (name : Text) (v : Value) :
    (s.relocate φ).bind id name (v.relocate φ) = (s.bind id name v).relocate φ := by
  unfold bind relocate
  congr 1
  refine Array.ext_getElem? fun i => ?_
  simp only [Array.getElem?_modify, Array.getElem?_map]
  split
  · cases s.scopes[i]? with
    | none => rfl
    | some scope => simp [Scope.set_relocate]
  · rfl

theorem bindAll_relocate (s : Store) (id : ScopeId) (bindings : List (Text × Value)) :
    (s.relocate φ).bindAll id (bindings.map fun b => (b.1, b.2.relocate φ)) = (s.bindAll id bindings).relocate φ := by
  induction bindings generalizing s with
  | nil => rfl
  | cons b rest ih =>
    have hstep := ih (s.bind id b.1 b.2)
    rw [← bind_relocate] at hstep
    exact hstep

theorem add_relocate (s : Store) (parent : Option ScopeId) :
    (s.relocate φ).add parent = ((s.add parent).1, (s.add parent).2.relocate φ) := by
  simp [add, relocate, Scope.relocate, Scope.empty]

theorem chain_relocate (s : Store) (id : ScopeId) : (s.relocate φ).chain id = (s.chain id).map (Scope.relocate φ) := by
  induction id using chain_induct s with
  | missing id h =>
    rw [chain.eq_def, get?_relocate, h]
    rfl
  | found id scope h ih =>
    rw [chain.eq_def, get?_relocate, h]
    simp only [Option.map_some, List.map_cons, Scope.relocate, List.cons.injEq, true_and]
    cases hp : scope.parent with
    | none => rfl
    | some parent =>
      simp only
      split
      · exact ih parent ‹_›
      · rfl

theorem lookup_relocate (s : Store) (id : ScopeId) (name : Text) :
    (s.relocate φ).lookup id name = (s.lookup id name).relocate φ := by
  unfold lookup
  rw [chain_relocate, List.findSome?_map]
  have hget : (fun scope : Scope => scope.get? name) ∘ Scope.relocate φ =
      fun scope => (scope.get? name).map (Value.relocate φ) := by
    funext scope
    exact scope.get?_relocate φ name
  rw [hget]
  generalize s.chain id = scopes
  induction scopes with
  | nil => rfl
  | cons scope rest ih =>
    simp only [List.findSome?_cons]
    cases scope.get? name with
    | none => exact ih
    | some v => rfl

end Store

/-- The machine with the positions in its values moved. -/
def Machine.relocate (φ : Position → Position) (m : Machine) : Machine :=
  ⟨m.store.relocate φ, m.escaped.map (Value.relocate φ)⟩

theorem Machine.enter_relocate (φ : Position → Position) (m : Machine) (parent : ScopeId)
    (bindings : List (Text × Value)) :
    (m.relocate φ).enter parent (bindings.map fun b => (b.1, b.2.relocate φ)) =
      ((m.enter parent bindings).1, (m.enter parent bindings).2.relocate φ) := by
  unfold enter relocate
  simp only [Store.add_relocate, Store.bindAll_relocate]

/-- The stop with its position moved. -/
def Stop.relocate (φ : Position → Position) : Stop → Stop
  | .fault cause pos => .fault cause (pos.map φ)
  | .overflow => .overflow

/-! ## Moved computations -/

namespace Eval

variable {φ : Position → Position} {α β : Type}

/-- An outcome with its value, its position and its machine moved. -/
def moved (φ : Position → Position) (g : α → β) : Except Stop α × Machine → Except Stop β × Machine
  | (.ok a, m) => (.ok (g a), m.relocate φ)
  | (.error e, m) => (.error (e.relocate φ), m.relocate φ)

/-- The second computation does on moved machines what the first one does, with the result moved. -/
def Moves (φ : Position → Position) (g : α → β) (x : Eval α) (x' : Eval β) : Prop :=
  ∀ m, exec x' (m.relocate φ) = moved φ g (exec x m)

theorem Moves.pure (g : α → β) (a : α) : Moves φ g (pure a) (pure (g a)) := fun _ => rfl

theorem Moves.fail (g : α → β) (cause : RuntimeCause) (pos : Option Position) :
    Moves φ g (fail cause pos) (fail cause (pos.map φ)) := fun _ => rfl

/-- The complaint about a callee that is no function tells nothing of positions but its own. -/
theorem Moves.refuse (limits : Limits) (pos : Position) (v : Value) :
    Moves φ (Value.relocate φ) (refuse limits pos v) (refuse limits (φ pos) (v.relocate φ)) := by
  unfold Eval.refuse
  rw [Value.typeName_relocate, Value.shown?_relocate]
  split
  · exact .fail _ _ (some pos)
  · exact fun _ => rfl

theorem Moves.bind {α' β' : Type} {g : α → β} {g' : α' → β'} {x : Eval α} {x' : Eval β} {f : α → Eval α'}
    {f' : β → Eval β'} (hx : Moves φ g x x') (hf : ∀ a, Moves φ g' (f a) (f' (g a))) :
    Moves φ g' (x >>= f) (x' >>= f') := by
  intro m
  rw [exec_bind, exec_bind, hx m]
  rcases exec x m with ⟨r, m'⟩
  cases r with
  | ok a => exact hf a m'
  | error e => rfl

theorem Moves.andThen {x x' : Eval Value} {f f' : Value → Eval Value} (hx : Moves φ (Value.relocate φ) x x')
    (hf : ∀ v, Moves φ (Value.relocate φ) (f v) (f' (v.relocate φ))) :
    Moves φ (Value.relocate φ) (andThen x f) (andThen x' f') := by
  refine hx.bind fun v => ?_
  rw [Value.isFlow_relocate]
  split
  · exact .pure _ v
  · exact hf v

theorem Moves.truth (limits : Limits) (v : Value) : Moves φ id (truth limits v) (truth limits (v.relocate φ)) := by
  intro m
  unfold Eval.truth
  rw [Value.truth?_relocate]
  cases v.truth? limits.tuples with
  | none => rfl
  | some b => rfl

theorem Moves.binary (op : Operator) (pos : Position) (a b : Value) :
    Moves φ (Value.relocate φ) (binary op pos a b) (binary op (φ pos) (a.relocate φ) (b.relocate φ)) := by
  intro m
  unfold Eval.binary
  rw [Operator.apply_relocate]
  split
  · rename_i v hv
    rw [exec_pure, exec_pure, moved, Value.relocate_of_scalar (Operator.apply_scalar hv)]
  · rfl

theorem Moves.negate (pos : Position) (v : Value) :
    Moves φ (Value.relocate φ) (negate pos v) (negate (φ pos) (v.relocate φ)) := by
  intro m
  cases v <;> rfl

theorem Moves.withinCall {x x' : Eval Value} (pos : Option Position) (hx : Moves φ (Value.relocate φ) x x') :
    Moves φ (Value.relocate φ) (withinCall pos x) (withinCall (pos.map φ) x') := by
  intro m
  rw [exec_withinCall, exec_withinCall, hx m]
  rcases exec x m with ⟨r, m'⟩
  cases r with
  | ok a => rfl
  | error e => cases e <;> rfl

/-- What several computations give, moved. -/
def relocateAll (φ : Position → Position) : Except Value (List Value) → Except Value (List Value)
  | .ok vs => .ok (vs.map (Value.relocate φ))
  | .error signal => .error (signal.relocate φ)

/-- Ways of making calls that do the same but for positions. -/
def MovesCalls (φ : Position → Position) (call : Caller) : Prop :=
  ∀ f args pos, Moves φ (Value.relocate φ) (call f args pos)
    (call (f.relocate φ) (args.map (Value.relocate φ)) (pos.map φ))

variable {limits : Limits} {call : Caller}

mutual

/-- Moved code does on moved machines what the code does, with all positions moved. -/
theorem evaluate_relocate (hcall : MovesCalls φ call) (scope : ScopeId) : ∀ c : Code,
    Moves φ (Value.relocate φ) (evaluate limits call scope c) (evaluate limits call scope (c.relocate φ))
  | .literal l => by
    rw [Code.relocate, evaluate]
    have : l.value.relocate φ = l.value := by cases l <;> rfl
    intro m
    rw [exec_pure, exec_pure, moved, this]
  | .lookup name => by
    rw [Code.relocate, evaluate]
    intro m
    rw [exec_lookup, exec_lookup, moved]
    simp only [Machine.relocate, Store.lookup_relocate]
  | .assign name value => by
    rw [Code.relocate, evaluate, evaluate]
    refine (evaluate_relocate hcall scope value).andThen fun v m => ?_
    rw [exec_bindName, exec_bindName, moved]
    simp only [Machine.relocate, Machine.bind, Store.bind_relocate]
  | .binary op pos left right => by
    rw [Code.relocate, evaluate, evaluate]
    refine (evaluate_relocate hcall scope left).andThen fun a => ?_
    exact (evaluate_relocate hcall scope right).andThen fun b => .binary op pos a b
  | .and left right => by
    rw [Code.relocate, evaluate, evaluate]
    refine (evaluate_relocate hcall scope left).andThen fun a => (Moves.truth limits a).bind fun b => ?_
    cases b with
    | true => exact evaluate_relocate hcall scope right
    | false => exact .pure _ a
  | .or left right => by
    rw [Code.relocate, evaluate, evaluate]
    refine (evaluate_relocate hcall scope left).andThen fun a => (Moves.truth limits a).bind fun b => ?_
    cases b with
    | true => exact .pure _ a
    | false => exact evaluate_relocate hcall scope right
  | .not operand => by
    rw [Code.relocate, evaluate, evaluate]
    exact (evaluate_relocate hcall scope operand).andThen fun a => (Moves.truth limits a).bind fun b => .pure _ _
  | .negate pos operand => by
    rw [Code.relocate, evaluate, evaluate]
    exact (evaluate_relocate hcall scope operand).andThen fun a => .negate pos a
  | .block statements => by
    rw [Code.relocate, evaluate, evaluate]
    exact evaluateBlock_relocate hcall scope .nil statements
  | .tuple items => by
    rw [Code.relocate, evaluate, evaluate]
    refine (evaluateAll_relocate hcall scope items).bind fun r => ?_
    cases r with
    | error signal => exact .pure _ signal
    | ok vs =>
      have htuple : Moves φ (Value.relocate φ) (pure (.tuple vs)) (pure ((Value.tuple vs).relocate φ)) := .pure _ _
      rwa [Value.relocate, Value.relocateAll_eq] at htuple
  | .function params body code => by
    rw [Code.relocate, evaluate, evaluate]
    exact fun _ => rfl
  | .apply pos callee args => by
    rw [Code.relocate, evaluate, evaluate]
    refine (evaluate_relocate hcall scope callee).andThen fun v => ?_
    cases v with
    | fn f =>
      refine (evaluateAll_relocate hcall scope args).bind fun r => ?_
      cases r with
      | error signal => exact .pure _ signal
      | ok vs => exact hcall f vs (some pos)
    | _ => exact .refuse limits pos _
  | .ret operand => by
    rw [Code.relocate, evaluate, evaluate]
    exact (evaluate_relocate hcall scope operand).andThen fun v => Moves.pure _ (Value.flow .ret v)
  | .jump kind => by
    rw [Code.relocate, evaluate]
    exact Moves.pure _ (Value.flow kind .nil)

theorem evaluateBlock_relocate (hcall : MovesCalls φ call) (scope : ScopeId) : ∀ (last : Value) (cs : List Code),
    Moves φ (Value.relocate φ) (evaluateBlock limits call scope last cs)
      (evaluateBlock limits call scope (last.relocate φ) (Code.relocateAll φ cs))
  | last, [] => by
    rw [Code.relocateAll, evaluateBlock, evaluateBlock]
    exact Moves.pure _ (Value.tuple [.bool true, last])
  | last, c :: cs => by
    rw [Code.relocateAll, evaluateBlock, evaluateBlock]
    exact (evaluate_relocate hcall scope c).andThen fun v => evaluateBlock_relocate hcall scope v cs

theorem evaluateAll_relocate (hcall : MovesCalls φ call) (scope : ScopeId) : ∀ cs : List Code,
    Moves φ (relocateAll φ) (evaluateAll limits call scope cs)
      (evaluateAll limits call scope (Code.relocateAll φ cs))
  | [] => by
    rw [Code.relocateAll, evaluateAll]
    exact Moves.pure _ (Except.ok [])
  | c :: cs => by
    rw [Code.relocateAll, evaluateAll, evaluateAll]
    refine (evaluate_relocate hcall scope c).bind fun v => ?_
    rw [Value.isFlow_relocate]
    split
    · exact Moves.pure _ (Except.error v)
    · refine (evaluateAll_relocate hcall scope cs).bind fun r => ?_
      cases r with
      | error signal => exact Moves.pure _ (Except.error signal)
      | ok vs => exact Moves.pure _ (Except.ok (v :: vs))

end

theorem leave_relocate (v : Value) : Moves φ (Value.relocate φ) (leave v) (leave (v.relocate φ)) := by
  cases v with
  | flow kind payload =>
    cases kind with
    | ret => exact .pure _ payload
    | brk => exact fun m => rfl
    | cont => exact fun m => rfl
  | tuple items =>
    match items with
    | [] => exact Moves.pure _ (Value.tuple [])
    | [a] => exact Moves.pure _ (Value.tuple [a])
    | [_, last] => exact .pure _ last
    | a :: b :: c :: rest => exact Moves.pure _ (Value.tuple (a :: b :: c :: rest))
  | _ => exact fun m => rfl

theorem call_relocate (φ : Position → Position) (limits : Limits) (depth : Nat) :
    MovesCalls φ (Eval.call limits depth) := by
  induction depth with
  | zero =>
    intro f args pos
    unfold Eval.call
    simp only [Function.relocate, List.length_map]
    split
    · exact .fail _ _ pos
    · exact .fail _ _ pos
  | succ depth ih =>
    intro f args pos
    unfold Eval.call
    simp only [Function.relocate, List.length_map]
    split
    · exact .fail _ _ pos
    · have henter : Moves φ id (enter f.scope (f.params.zip args))
          (enter f.scope (f.params.zip (args.map (Value.relocate φ)))) := by
        intro m
        have hzip : f.params.zip (args.map (Value.relocate φ)) =
            (f.params.zip args).map fun b => (b.1, b.2.relocate φ) := by
          rw [List.zip_map_right]
          rfl
        rw [exec_enter, exec_enter, hzip, Machine.enter_relocate]
        rfl
      refine henter.bind fun scope => ?_
      exact ((evaluate_relocate ih scope f.code).withinCall pos).bind fun v => leave_relocate v

end Eval

end Kettle
