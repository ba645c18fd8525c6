/-
Running code. Code runs in a scope and may bind names there; a call runs the body of a function in a
new scope below the one the function was made in. A flow signal cuts short whatever it comes up in,
until it reaches the call around it.
-/
import Kettle.Limits
import Kettle.Scope
import Kettle.Value.Binary

namespace Kettle

/-- What a run works on: the scopes, and the signals that left a call, the last one first. -/
structure Machine where
  store : Store
  escaped : List Value

namespace Machine

/-- A machine with one empty scope. -/
def initial : Machine := ⟨.initial, []⟩

/-- The machine with a name bound in a scope. -/
def bind (scope : ScopeId) (name : Text) (v : Value) : Machine → Machine
  | ⟨store, escaped⟩ => ⟨store.bind scope name v, escaped⟩

/-- The machine with one more scope, which has bindings, and its number. -/
def enter (parent : ScopeId) (bindings : List (Text × Value)) : Machine → ScopeId × Machine
  | ⟨store, escaped⟩ =>
    let (id, store) := store.add (some parent)
    (id, ⟨store.bindAll id bindings, escaped⟩)

/-- The machine with one more signal that left a call. -/
def escape (signal : Value) : Machine → Machine
  | ⟨store, escaped⟩ => ⟨store, signal :: escaped⟩

end Machine

/-- Why a run gives no value: a fault, or a value too deep to decide its truth or to write it out, which becomes a
fault of the call around it. -/
inductive Stop where
  | fault (cause : RuntimeCause) (pos : Option Position)
  | overflow
  deriving DecidableEq, Repr

/-- A computation on a machine. What a computation did before it stopped stays done. -/
abbrev Eval := ExceptT Stop (StateM Machine)

namespace Eval

/-- What a computation gives on a machine, and the machine afterwards. -/
def exec {α : Type} (x : Eval α) (m : Machine) : Except Stop α × Machine := (ExceptT.run x).run m

/-- Stops with a fault. -/
def fail {α : Type} (cause : RuntimeCause) (pos : Option Position) : Eval α := throw (.fault cause pos)

/-- The value of a name in a scope. -/
def lookup (scope : ScopeId) (name : Text) : Eval Value :=
  return (← get).store.lookup scope name

/-- Binds a name in a scope; the value is the result. -/
def bind (scope : ScopeId) (name : Text) (v : Value) : Eval Value := do
  modify (Machine.bind scope name v)
  return v

/-- Makes a scope with bindings below another one. -/
def enter (parent : ScopeId) (bindings : List (Text × Value)) : Eval ScopeId :=
  modifyGet (Machine.enter parent bindings)

/-- Remembers a signal that leaves a call. -/
def escape (signal : Value) : Eval Unit :=
  modify (Machine.escape signal)

/-- Goes on with a value, unless it is a signal. -/
def andThen (x : Eval Value) (f : Value → Eval Value) : Eval Value := do
  let v ← x
  if v.isFlow then return v else f v

/-- Whether a value counts as true. -/
def truth (limits : Limits) (v : Value) : Eval Bool :=
  match v.truth? limits.tuples with
  | some b => return b
  | none => throw .overflow

/-- The result of an operator, with faults at a position. -/
def binary (op : Operator) (pos : Position) (left right : Value) : Eval Value :=
  match op.apply left right with
  | .ok v => return v
  | .error cause => fail cause (some pos)

/-- The negative of a number. -/
def negate (pos : Position) : Value → Eval Value
  | .int n => return .int (Word.wrap (-n))
  | .float x => return .float (-x)
  | v => fail (.cannotNegate v.typeName) (some pos)

/-- Refuses to call a value that is no function. The fault shows the value. -/
def refuse (limits : Limits) (pos : Position) (v : Value) : Eval Value :=
  match v.shown? limits.nodes with
  | some t => fail (.notAFunction v.typeName t) (some pos)
  | none => throw .overflow

/-- How calls are made: a function, its arguments, and the position of the call. -/
abbrev Caller := Function → List Value → Option Position → Eval Value

mutual

/-- Runs code in a scope. -/
def evaluate (limits : Limits) (call : Caller) (scope : ScopeId) : Code → Eval Value
  | .literal l => return l.value
  | .lookup name => lookup scope name
  | .assign name value => andThen (evaluate limits call scope value) (bind scope name)
  | .binary op pos left right =>
    andThen (evaluate limits call scope left) fun a =>
    andThen (evaluate limits call scope right) fun b =>
    binary op pos a b
  | .and left right =>
    andThen (evaluate limits call scope left) fun a => do
    if ← truth limits a then evaluate limits call scope right else return a
  | .or left right =>
    andThen (evaluate limits call scope left) fun a => do
    if ← truth limits a then return a else evaluate limits call scope right
  | .not operand =>
    andThen (evaluate limits call scope operand) fun a => return .bool (!(← truth limits a))
  | .negate pos operand => andThen (evaluate limits call scope operand) (negate pos)
  | .block statements => evaluateBlock limits call scope .nil statements
  | .tuple items => do
    match ← evaluateAll limits call scope items with
    | .error signal => return signal
    | .ok vs => return .tuple vs
  | .function params body code => return .fn ⟨params, body, code, scope⟩
  | .apply pos callee args =>
    andThen (evaluate limits call scope callee) fun
      | .fn f => do
        match ← evaluateAll limits call scope args with
        | .error signal => return signal
        | .ok vs => call f vs (some pos)
      | v => refuse limits pos v
  | .ret operand => andThen (evaluate limits call scope operand) fun v => return .flow .ret v
  | .jump kind => return .flow kind .nil

/-- Runs statements one after the other; `last` is the value of the one before them. Without a signal
the result is a pair of true and the last value. -/
def evaluateBlock (limits : Limits) (call : Caller) (scope : ScopeId) (last : Value) : List Code → Eval Value
  | [] => return .tuple [.bool true, last]
  | c :: cs => andThen (evaluate limits call scope c) fun v => evaluateBlock limits call scope v cs

/-- Runs code for several values, or up to the first signal. -/
def evaluateAll (limits : Limits) (call : Caller) (scope : ScopeId) :
    List Code → Eval (Except Value (List Value))
  | [] => return .ok []
  | c :: cs => do
    let v ← evaluate limits call scope c
    if v.isFlow then return .error v
    match ← evaluateAll limits call scope cs with
    | .error signal => return .error signal
    | .ok vs => return .ok (v :: vs)

end

/-- The result of a call whose body gave `v`: the payload of a return signal, any other signal
itself, and the last value of a body that ran to its end. -/
def leave : Value → Eval Value
  | .flow .ret payload => return payload
  | .flow kind payload => do
    escape (.flow kind payload)
    return .flow kind payload
  | .tuple [_, last] => return last
  | v => return v

/-- Turns an overflow into a fault of the call it comes up in. -/
def withinCall (pos : Option Position) (x : Eval Value) : Eval Value :=
  tryCatch x fun
    | .overflow => fail .callDepth pos
    | stop => throw stop

/-- Calls a function, with room for `depth` calls inside one another. -/
def call (limits : Limits) : (depth : Nat) → Caller
  | depth, f, args, pos =>
    if args.length ≠ f.params.length then fail (.arity args.length f.params.length) pos
    else match depth with
      | 0 => fail .callDepth pos
      | depth + 1 => do
        let scope ← enter f.scope (f.params.zip args)
        leave (← withinCall pos (evaluate limits (call limits depth) scope f.code))

end Eval

end Kettle
