/-
Programs: a source is parsed, compiled and run in a scope. Nothing runs before all of it is compiled.
-/
import Kettle.Code.Compile
import Kettle.Eval
import Kettle.Log
import Kettle.Tree.Build

namespace Kettle

/-- A compiled tree. -/
structure Program where
  root : Node
  code : Code

namespace Program

/-- Compiles a tree. -/
def compile (limits : Limits) (root : Node) : Except Fault Program :=
  (Code.compile limits root).map fun code => ⟨root, code⟩

/-- Runs a computation that is not inside any call; an overflow is a fault at a position. -/
def finish (x : Eval Value) (pos : Position) (m : Machine) : Except Fault Value × Machine :=
  match Eval.exec x m with
  | (.ok v, m) => (.ok v, m)
  | (.error (.fault cause pos), m) => (.error (.runtime cause pos), m)
  | (.error .overflow, m) => (.error (.runtime .recursionDepth (some pos)), m)

/-- Runs a program in a scope. -/
def invoke (limits : Limits) (p : Program) (scope : ScopeId) (m : Machine) : Except Fault Value × Machine :=
  finish (Eval.evaluate limits (Eval.call limits limits.calls) scope p.code) p.root.pos m

end Program

/-- A run of a source: what was noted, the value or the fault, and the machine afterwards. -/
structure Run where
  log : List LogEntry
  result : Except Fault Value
  machine : Machine

namespace Run

/-- The complaints among what was noted. -/
def complaints (r : Run) : List Complaint := r.log.filterMap LogEntry.complaint?

end Run

/-- The entry that notes a fault of the scan. -/
def Fault.noted : Fault → List LogEntry
  | .lexical cause pos => [.lexical cause pos]
  | _ => []

/-- The notes about a parsed source. -/
def Tree.Built.log (b : Tree.Built) : List LogEntry :=
  b.complaints.map .complaint ++ match b.result with
    | .ok _ => []
    | .error f => f.noted

/-- The signals that left calls since the machine had `before` of them, in order. -/
def Machine.escapedSince (before : Nat) (m : Machine) : List LogEntry :=
  (m.escaped.take (m.escaped.length - before)).reverse.map fun v => .escaped v.shown

/-- Parses, compiles and runs a source in a scope. -/
def run (limits : Limits) (source text : Text) (scope : ScopeId) (m : Machine) : Run :=
  let built := parse limits source text
  match built.result with
  | .error f => ⟨built.log, .error f, m⟩
  | .ok root =>
    match Program.compile limits root with
    | .error f => ⟨built.log, .error f, m⟩
    | .ok p =>
      let before := m.escaped.length
      let (result, m) := p.invoke limits scope m
      ⟨built.log ++ .compiled root.kind root.pos :: m.escapedSince before, result, m⟩

/-- Calls a function from outside any program. -/
def Function.call (limits : Limits) (f : Function) (args : List Value) (m : Machine) :
    Except Fault Value × Machine :=
  Program.finish (Eval.call limits limits.calls f args none) f.body.pos m

end Kettle
