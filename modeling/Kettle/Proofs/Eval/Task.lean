/-
The tasks of a run. Running code runs parts of it, and calls run the bodies of functions. Every piece
of work that is done in the course of a run is a task with the machine it starts on, so what holds at
every moment of a run is what holds of all the moments that its first one leads to.
-/
import Kettle.Eval
import Mathlib.Logic.Relation

namespace Kettle

/-- A piece of work: running code in a scope, or calling a function; `depth` is the room that is left
for calls inside it. -/
inductive Task where
  | code (depth : Nat) (scope : ScopeId) (code : Code)
  | call (depth : Nat) (f : Function) (args : List Value) (pos : Option Position)

/-- Whether a task is a call. -/
def Task.isCall : Task → Bool
  | .code .. => false
  | .call .. => true

/-- A task about to be done on a machine. -/
structure Moment where
  task : Task
  machine : Machine

/-- The part of code that runs first, if it has one that runs before it does anything else. -/
def Code.first? : Code → Option Code
  | .assign _ value => some value
  | .binary _ _ left _ | .and left _ | .or left _ => some left
  | .not operand | .negate _ operand | .ret operand => some operand
  | .apply _ callee _ => some callee
  | _ => none

namespace Task

variable (limits : Limits)

/-- What a task computes. -/
def eval : Task → Eval Value
  | .code depth scope c => Eval.evaluate limits (Eval.call limits depth) scope c
  | .call depth f args pos => Eval.call limits depth f args pos

/-- Codes that run one after the other in a scope, each giving a value that is no signal, and the
machine they leave. -/
inductive Passes (depth : Nat) (scope : ScopeId) : List Code → Machine → Machine → Prop where
  | nil {m : Machine} : Passes depth scope [] m m
  | cons {c : Code} {cs : List Code} {m m' m'' : Machine} {v : Value}
      (hc : Eval.exec (eval limits (.code depth scope c)) m = (.ok v, m')) (hv : v.isFlow = false)
      (hcs : Passes depth scope cs m' m'') : Passes depth scope (c :: cs) m m''

end Task

namespace Moment

variable (limits : Limits)

/-- What a task gives, and the machine afterwards. -/
def outcome (t : Moment) : Except Stop Value × Machine := Eval.exec (t.task.eval limits) t.machine

/-- In the course of the first task the second one is started. -/
inductive Starts : Moment → Moment → Prop where
  | first {depth scope c c' m} (h : Code.first? c = some c') :
      Starts ⟨.code depth scope c, m⟩ ⟨.code depth scope c', m⟩
  | second {depth scope op pos left right m m' a}
      (h : outcome limits ⟨.code depth scope left, m⟩ = (.ok a, m')) (ha : a.isFlow = false) :
      Starts ⟨.code depth scope (.binary op pos left right), m⟩ ⟨.code depth scope right, m'⟩
  | andSecond {depth scope left right m m' a}
      (h : outcome limits ⟨.code depth scope left, m⟩ = (.ok a, m')) (ha : a.isFlow = false)
      (ht : a.truth? limits.tuples = some true) :
      Starts ⟨.code depth scope (.and left right), m⟩ ⟨.code depth scope right, m'⟩
  | orSecond {depth scope left right m m' a}
      (h : outcome limits ⟨.code depth scope left, m⟩ = (.ok a, m')) (ha : a.isFlow = false)
      (ht : a.truth? limits.tuples = some false) :
      Starts ⟨.code depth scope (.or left right), m⟩ ⟨.code depth scope right, m'⟩
  | statement {depth scope before c after m m'} (h : Task.Passes limits depth scope before m m') :
      Starts ⟨.code depth scope (.block (before ++ c :: after)), m⟩ ⟨.code depth scope c, m'⟩
  | item {depth scope before c after m m'} (h : Task.Passes limits depth scope before m m') :
      Starts ⟨.code depth scope (.tuple (before ++ c :: after)), m⟩ ⟨.code depth scope c, m'⟩
  | argument {depth scope pos callee f before c after m m' m''}
      (hf : outcome limits ⟨.code depth scope callee, m⟩ = (.ok (.fn f), m'))
      (h : Task.Passes limits depth scope before m' m'') :
      Starts ⟨.code depth scope (.apply pos callee (before ++ c :: after)), m⟩ ⟨.code depth scope c, m''⟩
  | call {depth scope pos callee f args vs m m' m''}
      (hf : outcome limits ⟨.code depth scope callee, m⟩ = (.ok (.fn f), m'))
      (h : Eval.exec (Eval.evaluateAll limits (Eval.call limits depth) scope args) m' = (.ok (.ok vs), m'')) :
      Starts ⟨.code depth scope (.apply pos callee args), m⟩ ⟨.call depth f vs (some pos), m''⟩
  | body {depth f args pos m} (h : args.length = f.params.length) :
      Starts ⟨.call (depth + 1) f args pos, m⟩
        ⟨.code depth (m.enter f.scope (f.params.zip args)).1 f.code, (m.enter f.scope (f.params.zip args)).2⟩

/-- All that is done in the course of a task: the task itself, and what is started in its course. -/
def During (t t' : Moment) : Prop := Relation.ReflTransGen (Starts limits) t t'

end Moment

end Kettle
