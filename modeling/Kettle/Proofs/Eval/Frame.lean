/-
What a run can change. Code binds names in the scope it runs in and makes new scopes for calls; it
does nothing to any other scope that was there before, however it ends. A call runs in a scope of its
own, so it changes nothing that was there before.
-/
import Kettle.Proofs.Eval.Invariant

namespace Kettle

/-! ## Scopes and stores -/

namespace Scope

/-- A scope keeps its parent and the names it binds. -/
structure Keeps (s s' : Scope) : Prop where
  parent : s'.parent = s.parent
  names : ∀ name, (s.get? name).isSome → (s'.get? name).isSome

theorem Keeps.refl (s : Scope) : s.Keeps s := ⟨rfl, fun _ h => h⟩

theorem Keeps.trans {s s' s'' : Scope} (h : s.Keeps s') (h' : s'.Keeps s'') : s.Keeps s'' :=
  ⟨h'.parent.trans h.parent, fun name hn => h'.names name (h.names name hn)⟩

theorem lookup_setIn (name : Text) (v : Value) (bindings : List (Text × Value)) (name' : Text) :
    (setIn name v bindings).lookup name' = if name' = name then some v else bindings.lookup name' := by
  have hne : ∀ {a b : Text}, a ≠ b → (a == b) = false := fun h => by simpa using h
  induction bindings with
  | nil =>
    by_cases h : name' = name
    · simp [setIn, h]
    · simp [setIn, h]
  | cons b rest ih =>
    obtain ⟨n, w⟩ := b
    unfold setIn
    by_cases hn : n = name
    · subst hn
      by_cases h : name' = n
      · simp [h]
      · simp [h, hne h, List.lookup_cons]
    · rw [if_neg hn, List.lookup_cons, List.lookup_cons, ih]
      by_cases h : name' = name
      · simp [h, hne (Ne.symm hn)]
      · simp [h]

@[simp] theorem get?_set (s : Scope) (name : Text) (v : Value) (name' : Text) :
    (s.set name v).get? name' = if name' = name then some v else s.get? name' :=
  lookup_setIn name v s.bindings name'

theorem keeps_set (s : Scope) (name : Text) (v : Value) : s.Keeps (s.set name v) := by
  refine ⟨rfl, fun name' h => ?_⟩
  rw [get?_set]
  split
  · rfl
  · exact h

end Scope

namespace Store

/-- The number of scopes. -/
def size (s : Store) : Nat := s.scopes.size

theorem get?_eq_none_iff {s : Store} {id : ScopeId} : s.get? id = none ↔ s.size ≤ id := by
  simp [get?, size]

@[simp] theorem size_bind (s : Store) (id : ScopeId) (name : Text) (v : Value) :
    (s.bind id name v).size = s.size := by simp [size, bind]

theorem get?_bind (s : Store) (id : ScopeId) (name : Text) (v : Value) (id' : ScopeId) :
    (s.bind id name v).get? id' = if id = id' then (s.get? id').map (·.set name v) else s.get? id' := by
  unfold get? bind
  rw [Array.getElem?_modify]

@[simp] theorem size_bindAll (s : Store) (id : ScopeId) (bindings : List (Text × Value)) :
    (s.bindAll id bindings).size = s.size := by
  induction bindings generalizing s with
  | nil => rfl
  | cons b rest ih => exact (ih _).trans (size_bind s id b.1 b.2)

theorem get?_bindAll_of_ne {id id' : ScopeId} (h : id' ≠ id) (bindings : List (Text × Value)) (s : Store) :
    (s.bindAll id bindings).get? id' = s.get? id' := by
  induction bindings generalizing s with
  | nil => rfl
  | cons b rest ih =>
    refine (ih (s.bind id b.1 b.2)).trans ?_
    rw [get?_bind, if_neg (Ne.symm h)]

@[simp] theorem size_add (s : Store) (parent : Option ScopeId) : (s.add parent).2.size = s.size + 1 := by
  simp [size, add]

theorem get?_add (s : Store) (parent : Option ScopeId) (id : ScopeId) :
    (s.add parent).2.get? id = if id = s.size then some (.empty parent) else s.get? id := by
  unfold get? add size
  rw [Array.getElem?_push]

end Store

/-! ## What is bound -/

/-- All that a scope binds has a property. -/
def Scope.Binds (P : Value → Prop) (s : Scope) : Prop := ∀ name v, s.get? name = some v → P v

theorem Scope.Binds.set {P : Value → Prop} {s : Scope} (h : s.Binds P) (name : Text) {v : Value} (hv : P v) :
    (s.set name v).Binds P := by
  intro name' v' h'
  rw [get?_set] at h'
  split at h'
  · cases h'; exact hv
  · exact h name' v' h'

namespace Store

/-- All that is bound anywhere in a store has a property. -/
def Binds (P : Value → Prop) (s : Store) : Prop := ∀ id scope, s.get? id = some scope → scope.Binds P

section

variable {P : Value → Prop} {s : Store}

theorem Binds.bind (h : s.Binds P) (id : ScopeId) (name : Text) {v : Value} (hv : P v) : (s.bind id name v).Binds P := by
  intro id' scope hs
  rw [get?_bind] at hs
  split at hs
  · obtain ⟨old, hold, rfl⟩ := Option.map_eq_some_iff.1 hs
    exact (h id' old hold).set name hv
  · exact h id' scope hs

theorem Binds.bindAll (h : s.Binds P) (id : ScopeId) {bindings : List (Text × Value)} (hb : ∀ b ∈ bindings, P b.2) :
    (s.bindAll id bindings).Binds P := by
  induction bindings generalizing s with
  | nil => exact h
  | cons b rest ih => exact ih (h.bind id b.1 (hb b (by simp))) fun b' hb' => hb b' (by simp [hb'])

theorem Binds.add (h : s.Binds P) (parent : Option ScopeId) : (s.add parent).2.Binds P := by
  intro id scope hs
  rw [get?_add] at hs
  split at hs
  · cases hs
    intro name v hv
    cases hv
  · exact h id scope hs

/-- The scope of a call binds the arguments. -/
theorem Binds.enter {m : Machine} (h : m.store.Binds P) (parent : ScopeId) (params : List Text) {args : List Value}
    (hargs : ∀ v ∈ args, P v) : (m.enter parent (params.zip args)).2.store.Binds P := by
  refine (Binds.add h (some parent)).bindAll _ fun b hb => ?_
  exact hargs b.2 (List.of_mem_zip hb).2

/-- What is found from a scope outwards are scopes of the store. -/
theorem mem_chain {id : ScopeId} {scope : Scope} (h : scope ∈ s.chain id) : ∃ id', s.get? id' = some scope := by
  induction id using chain_induct s with
  | missing => cases h
  | found id own hown ih =>
    rcases List.mem_cons.1 h with rfl | h
    · exact ⟨id, hown⟩
    · split at h
      · cases h
      · split at h
        · exact ih _ ‹_› h
        · cases h

/-- A name that is not bound is nil. -/
theorem Binds.lookup (h : s.Binds P) (hnil : P .nil) (id : ScopeId) (name : Text) : P (s.lookup id name) := by
  unfold Store.lookup
  cases hf : (s.chain id).findSome? fun scope => scope.get? name with
  | none => exact hnil
  | some v =>
    obtain ⟨scope, hmem, hv⟩ := List.exists_of_findSome?_eq_some hf
    obtain ⟨id', hid⟩ := mem_chain hmem
    exact h id' scope hid name v hv

theorem binds_initial (P : Value → Prop) : Store.initial.Binds P := by
  intro id scope h name v hv
  have hempty : scope = .empty none := by
    cases id with
    | zero => simpa [Store.initial, Store.get?, eq_comm] using h
    | succ n => simp [Store.initial, Store.get?] at h
  subst hempty
  cases hv

end

/-! ## Frames -/

/-- All scopes of a store are in another one, as they are. -/
structure Untouched (s s' : Store) : Prop where
  size_le : s.size ≤ s'.size
  same : ∀ id < s.size, s'.get? id = s.get? id

/-- All scopes of a store are in another one, as they are but for one of them, which has the same
parent and binds the same names at least. -/
structure Frame (scope : ScopeId) (s s' : Store) : Prop where
  size_le : s.size ≤ s'.size
  others : ∀ id < s.size, id ≠ scope → s'.get? id = s.get? id
  own : ∀ old, s.get? scope = some old → ∃ new, s'.get? scope = some new ∧ old.Keeps new

variable {s s' s'' : Store} {scope : ScopeId}

theorem Frame.refl (scope : ScopeId) (s : Store) : Frame scope s s :=
  ⟨Nat.le_refl _, fun _ _ _ => rfl, fun old h => ⟨old, h, .refl old⟩⟩

theorem Frame.trans (h : Frame scope s s') (h' : Frame scope s' s'') : Frame scope s s'' := by
  refine ⟨Nat.le_trans h.size_le h'.size_le, ?_, ?_⟩
  · intro id hid hne
    rw [h'.others id (Nat.lt_of_lt_of_le hid h.size_le) hne, h.others id hid hne]
  · intro old hold
    obtain ⟨mid, hmid, hkeeps⟩ := h.own old hold
    obtain ⟨new, hnew, hkeeps'⟩ := h'.own mid hmid
    exact ⟨new, hnew, hkeeps.trans hkeeps'⟩

theorem frame_bind (s : Store) (scope : ScopeId) (name : Text) (v : Value) : Frame scope s (s.bind scope name v) := by
  refine ⟨Nat.le_of_eq (size_bind s scope name v).symm, ?_, ?_⟩
  · intro id _ hne
    rw [get?_bind, if_neg (Ne.symm hne)]
  · intro old hold
    exact ⟨old.set name v, by rw [get?_bind, if_pos rfl, hold]; rfl, old.keeps_set name v⟩

theorem Untouched.frame (h : Untouched s s') (scope : ScopeId) : Frame scope s s' := by
  refine ⟨h.size_le, fun id hid _ => h.same id hid, fun old hold => ⟨old, ?_, .refl old⟩⟩
  have hlt : scope < s.size := by
    refine Nat.lt_of_not_le fun hge => ?_
    rw [get?_eq_none_iff.2 hge] at hold
    cases hold
  rw [h.same scope hlt, hold]

/-- Where the scope of a frame is new, nothing of the old store is touched. -/
theorem Frame.of_new (h : Frame scope s s') (hu : Untouched s'' s) (hs : s''.size ≤ scope) : Untouched s'' s' := by
  refine ⟨Nat.le_trans hu.size_le h.size_le, fun id hid => ?_⟩
  rw [h.others id (Nat.lt_of_lt_of_le hid hu.size_le) (by omega), hu.same id hid]

theorem Untouched.refl (s : Store) : Untouched s s := ⟨Nat.le_refl _, fun _ _ => rfl⟩

theorem untouched_enter (s : Store) (parent : ScopeId) (bindings : List (Text × Value)) :
    Untouched s ((s.add (some parent)).2.bindAll s.size bindings) := by
  refine ⟨by simp, fun id hid => ?_⟩
  rw [get?_bindAll_of_ne (Nat.ne_of_lt hid), get?_add, if_neg (Nat.ne_of_lt hid)]

end Store

/-! ## Running code -/

/-- All code may run anywhere, and leads to stores that have the one it started with in a frame. -/
def frames : Discipline where
  Sound _ := True
  Fits _ _ := True
  Home _ _ := True
  Allows _ := True
  Leads scope m m' := m.store.Frame scope m'.store
  leads_refl scope m := .refl scope m.store
  leads_trans h h' := h.trans h'
  fits_leads _ _ := trivial
  home_leads _ _ := trivial
  part _ _ := trivial
  nil _ := trivial
  bool _ _ := trivial
  literal _ _ _ := trivial
  operator _ _ _ := trivial
  negateInt _ := trivial
  negateFloat _ := trivial
  tuple _ _ _ := trivial
  pair _ _ := trivial
  item _ _ := trivial
  payload _ := trivial
  function _ _ := trivial
  lookup _ _ _ := trivial
  bind := fun {m scope name _ v} _ _ _ _ => ⟨trivial, m.store.frame_bind scope name v⟩
  body _ := trivial
  enter _ _ _ _ := ⟨trivial, trivial⟩
  leave := fun {m _ scope parent bindings} h =>
    -- the scope of the call is new
    (h.of_new (m.store.untouched_enter parent bindings) (Nat.le_refl _)).frame scope
  escape scope _ _ _ := ⟨trivial, .refl scope _⟩

/-- A call touches no scope that was there. -/
theorem call_untouched (limits : Limits) (depth : Nat) (f : Function) (args : List Value) (pos : Option Position)
    (m : Machine) : m.store.Untouched (Eval.exec (Eval.call limits depth f args pos) m).2.store := by
  -- the frame of a scope that is not there yet
  have hframe := (frames.call_runs limits depth m.store.size f args pos m trivial trivial fun _ _ => trivial).1.2
  exact hframe.of_new (.refl _) (Nat.le_refl _)

/-- However a run ends, it leaves every scope that was there as it was, but for the scope it runs in,
which keeps its parent and the names it binds; and a call leaves all of them as they were. -/
theorem run_changes_own_scope_only (limits : Limits) (m : Machine) :
    (∀ (p : Program) (scope : ScopeId), m.store.Frame scope (p.invoke limits scope m).2.store) ∧
    (∀ depth f args pos, m.store.Untouched (Eval.exec (Eval.call limits depth f args pos) m).2.store) ∧
    ∀ (f : Function) args, m.store.Untouched (f.call limits args m).2.store := by
  refine ⟨fun p scope => ?_, fun depth f args pos => call_untouched limits depth f args pos m, fun f args => ?_⟩
  · have hstart : frames.Admits (p.start limits scope m) := ⟨trivial, trivial, trivial⟩
    unfold Program.invoke
    rw [Program.finish_store]
    exact (hstart.keeps_code limits).1.2
  · unfold Function.call
    rw [Program.finish_store]
    exact call_untouched limits limits.calls f args none m

end Kettle
