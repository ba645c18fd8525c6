/-
Lexical scoping. What a call gives depends on the function, its arguments, and the scopes that can be
reached from them, through parents and through functions that are bound there; nothing else that a
store holds makes a difference, not even the scope that the call is made from.
-/
import Kettle.Proofs.Eval.Paired

namespace Kettle

/-! ## Reachable scopes -/

namespace Value

mutual

/-- The scopes of the functions in a value, at any depth. -/
def scopes : Value → List ScopeId
  | tuple items => scopesAll items
  | fn f => [f.scope]
  | flow _ payload => scopes payload
  | _ => []

/-- The scopes of the functions in several values. -/
def scopesAll : List Value → List ScopeId
  | [] => []
  | v :: vs => scopes v ++ scopesAll vs

end

variable {R : ScopeId → ScopeId → Prop}

mutual

/-- A value is paired with itself where the scopes of its functions are. -/
theorem paired_self : ∀ {v : Value}, (∀ id ∈ v.scopes, R id id) → v.Paired R v
  | nil, _ => .scalar rfl
  | bool _, _ => .scalar rfl
  | int _, _ => .scalar rfl
  | float _, _ => .scalar rfl
  | str _, _ => .scalar rfl
  | tuple _, h => .tuple (pairedAll_self (by simpa only [scopes] using h))
  | fn f, h => .fn (h f.scope (by simp [scopes]))
  | flow kind _, h => .flow kind (paired_self (by simpa only [scopes] using h))

theorem pairedAll_self : ∀ {vs : List Value}, (∀ id ∈ scopesAll vs, R id id) → List.Forall₂ (Value.Paired R) vs vs
  | [], _ => .nil
  | _ :: _, h => by
    simp only [scopesAll, List.mem_append] at h
    exact .cons (paired_self fun id hid => h id (.inl hid)) (pairedAll_self fun id hid => h id (.inr hid))

end

end Value

namespace Store

/-- The scopes that can be reached from some scopes, through parents and through functions in what a
scope binds. -/
inductive Reaches (s : Store) (starts : List ScopeId) : ScopeId → Prop where
  | here {id : ScopeId} (h : id ∈ starts) : Reaches s starts id
  | parent {id p : ScopeId} {scope : Scope} (h : Reaches s starts id) (hs : s.get? id = some scope)
      (hp : scope.parent = some p) : Reaches s starts p
  | binding {id p : ScopeId} {scope : Scope} {b : Text × Value} (h : Reaches s starts id)
      (hs : s.get? id = some scope) (hb : b ∈ scope.bindings) (hp : p ∈ b.2.scopes) : Reaches s starts p

/-- Two stores have the same scopes under some numbers. -/
def AgreeOn (P : ScopeId → Prop) (s s' : Store) : Prop :=
  ∀ id, P id → ∃ scope, s.get? id = some scope ∧ s'.get? id = some scope

variable {P : ScopeId → Prop} {s s' : Store} {starts : List ScopeId}

theorem lt_size_of_get? {s : Store} {id : ScopeId} {scope : Scope} (h : s.get? id = some scope) : id < s.size := by
  refine Nat.lt_of_not_le fun hge => ?_
  rw [get?_eq_none_iff.2 hge] at h
  cases h

/-- The pairing of stores that agree on some scopes, before a run. -/
def AgreeOn.pairing (h : AgreeOn P s s') : Pairing where
  old := P
  left := s.size
  right := s'.size
  old_lt id hid := by
    obtain ⟨scope, hs, hs'⟩ := h id hid
    exact ⟨lt_size_of_get? hs, lt_size_of_get? hs'⟩

/-- Stores that agree on all that can be reached match. -/
theorem AgreeOn.matches (h : AgreeOn (s.Reaches starts) s s') : s.Matches h.pairing s' := by
  refine ⟨⟨0, rfl, rfl⟩, ?_⟩
  rintro i j (⟨hi, rfl⟩ | ⟨k, rfl, rfl⟩)
  · obtain ⟨scope, hs, hs'⟩ := h i hi
    rw [hs, hs']
    refine .some ⟨?_, List.forall₂_same.2 fun b hb => ⟨rfl, Value.paired_self fun id hid => .inl ⟨?_, rfl⟩⟩⟩
    · cases hp : scope.parent with
      | none => exact .none
      | some p => exact .some (.inl ⟨.parent hi hs hp, rfl⟩)
    · exact .binding hi hs hb hid
  · have hs : s.get? (h.pairing.left + k) = none := get?_eq_none_iff.2 (Nat.le_add_right s.size k)
    have hs' : s'.get? (h.pairing.right + k) = none := get?_eq_none_iff.2 (Nat.le_add_right s'.size k)
    rw [hs, hs']
    exact .none

end Store

/-! ## Calls in two stores -/

/-- An overflow outside of all calls is the same fault in both runs. -/
theorem EndPaired.finish {ρ : Pairing} {x x' : Eval Value} {m m' : Machine} (pos : Position)
    (h : EndPaired ρ (Value.Paired ρ.Pairs) (Eval.exec x m) (Eval.exec x' m')) :
    EndPaired ρ (Value.Paired ρ.Pairs) (Program.finish x pos m) (Program.finish x' pos m') := by
  unfold Program.finish
  generalize Eval.exec x m = r, Eval.exec x' m' = r' at h
  cases h with
  | value h hm => exact .value h hm
  | error e hm => cases e <;> exact .error _ hm

/-- A call ends in the same way in any two stores that agree on what can be reached from the function
and from the functions in its arguments: with the same fault, or with values that are equal but for the
scopes made by the call. Where the call is made from makes no difference. -/
theorem call_noninterference (limits : Limits) (f : Function) (args : List Value) (m m' : Machine)
    (h : Store.AgreeOn (m.store.Reaches (f.scope :: Value.scopesAll args)) m.store m'.store) :
    (∀ depth pos, EndPaired h.pairing (Value.Paired h.pairing.Pairs)
      (Eval.exec (Eval.call limits depth f args pos) m) (Eval.exec (Eval.call limits depth f args pos) m')) ∧
    EndPaired h.pairing (Value.Paired h.pairing.Pairs) (f.call limits args m) (f.call limits args m') := by
  have hself : ∀ id ∈ f.scope :: Value.scopesAll args, h.pairing.Pairs id id := fun id hid => .inl ⟨.here hid, rfl⟩
  have hf : (Value.fn f).Paired h.pairing.Pairs (.fn f) := .fn (hself f.scope (by simp))
  have hargs : List.Forall₂ (Value.Paired h.pairing.Pairs) args args :=
    Value.pairedAll_self fun id hid => hself id (by simp [hid])
  have hcall : ∀ depth pos, EndPaired h.pairing (Value.Paired h.pairing.Pairs)
      (Eval.exec (Eval.call limits depth f args pos) m) (Eval.exec (Eval.call limits depth f args pos) m') :=
    fun depth pos => Eval.agree_call h.pairing limits depth pos hf hargs m m' h.matches
  exact ⟨hcall, (hcall limits.calls none).finish f.body.pos⟩

/-- A function of the first scope that gives a function of its own scope, called from a store where
another scope binds the same name and from one where two other scopes do. -/
theorem call_noninterference_shadowed :
    let outer : Scope := ⟨none, [("x", .int 1)]⟩
    let caller : Scope := ⟨some 0, [("x", .int 2)]⟩
    let body : Node := ⟨.lbrace, "\x7b", [], true, .start []⟩
    let f : Function := ⟨["y"], body, .block [.function [] body (.block [.lookup "x"])], 0⟩
    ∃ ρ : Pairing, EndPaired ρ (Value.Paired ρ.Pairs) (f.call .standard [.int 3] ⟨⟨#[outer, caller]⟩, []⟩)
      (f.call .standard [.int 3] ⟨⟨#[outer, .empty (some 0), caller]⟩, []⟩) := by
  intro outer caller body f
  refine ⟨_, (call_noninterference .standard f [.int 3] ⟨⟨#[outer, caller]⟩, []⟩
    ⟨⟨#[outer, .empty (some 0), caller]⟩, []⟩ fun id hid => ?_).2⟩
  obtain rfl : id = 0 := by
    induction hid with
    | here h => simpa [Value.scopesAll, Value.scopes, f] using h
    | parent h hs hp ih =>
      subst ih
      cases hs
      cases hp
    | binding h hs hb hp ih =>
      subst ih
      cases hs
      obtain rfl := List.mem_singleton.1 hb
      cases hp
  exact ⟨outer, rfl, rfl⟩

end Kettle
