/-
Scopes. A scope binds names to values and may have a parent; a name is looked up from a scope
outwards and bound in the scope itself. A store holds all scopes, each by its number, and scopes are
only ever added to it.
-/
import Kettle.Value

namespace Kettle

/-- A scope: its parent and its own bindings. -/
structure Scope where
  parent : Option ScopeId
  bindings : List (Text × Value)

namespace Scope

/-- A scope without bindings. -/
def empty (parent : Option ScopeId) : Scope := ⟨parent, []⟩

/-- The value that a scope itself binds a name to. -/
def get? (s : Scope) (name : Text) : Option Value := s.bindings.lookup name

/-- The bindings with a name bound anew. -/
def setIn (name : Text) (v : Value) : List (Text × Value) → List (Text × Value)
  | [] => [(name, v)]
  | (n, w) :: rest => if n = name then (n, v) :: rest else (n, w) :: setIn name v rest

/-- The scope with a name bound, instead of what it was bound to. -/
def set (s : Scope) (name : Text) (v : Value) : Scope := ⟨s.parent, setIn name v s.bindings⟩

/-- The bindings of a scope by name. -/
def sorted (s : Scope) : List (Text × Value) :=
  s.bindings.mergeSort fun a b => !decide (b.1 < a.1)

end Scope

/-- All scopes. -/
structure Store where
  scopes : Array Scope

namespace Store

/-- The store of a single scope without bindings and without parent. -/
def initial : Store := ⟨#[.empty none]⟩

/-- The number of the first scope. -/
def root : ScopeId := 0

/-- The scope with a number. -/
def get? (s : Store) (id : ScopeId) : Option Scope := s.scopes[id]?

/-- Adds a scope without bindings. -/
def add (s : Store) (parent : Option ScopeId) : ScopeId × Store :=
  (s.scopes.size, ⟨s.scopes.push (.empty parent)⟩)

/-- Binds a name in a scope. -/
def bind (s : Store) (id : ScopeId) (name : Text) (v : Value) : Store :=
  ⟨s.scopes.modify id fun scope => scope.set name v⟩

/-- Binds several names in a scope, in order. -/
def bindAll (s : Store) (id : ScopeId) (bindings : List (Text × Value)) : Store :=
  bindings.foldl (fun s (name, v) => s.bind id name v) s

/-- The scopes from a scope outwards. A parent is always older than its child, and a number that is
not smaller ends the chain. -/
def chain (s : Store) (id : ScopeId) : List Scope :=
  match s.get? id with
  | none => []
  | some scope =>
    scope :: match scope.parent with
      | none => []
      | some parent => if parent < id then s.chain parent else []
termination_by id

/-- Induction on the number of a scope, outwards. -/
theorem chain_induct (s : Store) {motive : ScopeId → List Scope → Prop}
    (missing : ∀ id, s.get? id = none → motive id [])
    (found : ∀ id scope, s.get? id = some scope → (∀ parent, parent < id → motive parent (s.chain parent)) →
      motive id (scope :: match scope.parent with
        | none => []
        | some parent => if parent < id then s.chain parent else []))
    (id : ScopeId) : motive id (s.chain id) :=
  chain.induct_unfolding s motive missing found id

/-- The value of a name seen from a scope: that of the nearest scope that binds it, or nil. -/
def lookup (s : Store) (id : ScopeId) (name : Text) : Value :=
  ((s.chain id).findSome? fun scope => scope.get? name).getD .nil

/-- The number of ancestors of a scope. -/
def depth (s : Store) (id : ScopeId) : Nat := (s.chain id).length - 1

/-- The bindings of a scope by name. -/
def bindings (s : Store) (id : ScopeId) : List (Text × Value) :=
  match s.get? id with
  | none => []
  | some scope => scope.sorted

/-- The parent of a scope, or the scope itself if it has none. -/
def up (s : Store) (id : ScopeId) : ScopeId := ((s.get? id).bind Scope.parent).getD id

/-- A scope on one line: how deep it is and which names it binds. -/
def describe (s : Store) (id : ScopeId) : Text :=
  "<env depth=" ++ Text.ofNat (s.depth id) ++ " names="
    ++ Text.quotedList ((s.bindings id).map Prod.fst) ++ ">"

end Store

end Kettle
