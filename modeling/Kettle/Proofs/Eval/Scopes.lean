/-
The scopes that a store refers to. A scope refers to its parent, and a function to the scope it was made in. A function
may be bound in that very scope, so what is bound can lead round in circles; but a scope is made after its parent and
never gets another one. So everything that a machine refers to is there at every moment of its runs, the way outwards
from a scope comes to an end, and a name has the value that the nearest scope on this way binds it to.
-/
import Kettle.Proofs.Eval.Pieces

namespace Kettle

/-! ## Stores without loose ends -/

namespace Store

variable {s s' : Store} {id : ScopeId}

/-- There is a scope with a number. -/
def Has (s : Store) (id : ScopeId) : Prop := ∃ scope, s.get? id = some scope

theorem has_iff : s.Has id ↔ id < s.size := by
  rw [Has, ← Option.ne_none_iff_exists', Ne, get?_eq_none_iff, Nat.not_le]

theorem Has.mono (h : s.Has id) (hsize : s.size ≤ s'.size) : s'.Has id :=
  has_iff.2 (Nat.lt_of_lt_of_le (has_iff.1 h) hsize)

end Store

/-- The functions in a value, at any depth, were made in scopes of a store. -/
def Value.LivesIn (s : Store) (v : Value) : Prop := ∀ f ∈ v.functions, s.Has f.scope

theorem Value.livesIn_fn {s : Store} {f : Function} : (Value.fn f).LivesIn s ↔ s.Has f.scope :=
  List.forall_mem_singleton

theorem Value.LivesIn.mono {s s' : Store} {v : Value} (h : v.LivesIn s) (hsize : s.size ≤ s'.size) : v.LivesIn s' :=
  fun f hf => (h f hf).mono hsize

namespace Store

variable {s s' : Store} {id p : ScopeId} {name : Text} {v : Value}

/-- The parent of a scope is there and is older, and the scopes of all functions that are bound anywhere are there,
whatever their age. -/
structure WellFormed (s : Store) : Prop where
  parent : ∀ id scope p, s.get? id = some scope → scope.parent = some p → s.Has p ∧ p < id
  bound : s.Binds (Value.LivesIn s)

theorem Binds.livesIn (h : s.Binds (Value.LivesIn s')) (hsize : s'.size ≤ s.size) : s.Binds (Value.LivesIn s) :=
  fun id scope hs name v hv => (h id scope hs name v hv).mono hsize

theorem wellFormed_initial : Store.initial.WellFormed := by
  refine ⟨fun id scope p hs hp => ?_, binds_initial _⟩
  have hid := has_iff.1 ⟨scope, hs⟩
  obtain rfl : id = 0 := Nat.lt_one_iff.1 hid
  cases hs
  cases hp

/-- Binding a name changes no parent. -/
theorem WellFormed.bind (h : s.WellFormed) (id : ScopeId) (name : Text) (hv : v.LivesIn s) :
    (s.bind id name v).WellFormed := by
  have hsize : s.size ≤ (s.bind id name v).size := by simp
  refine ⟨fun id' scope p hs hp => ?_, (h.bound.bind id name hv).livesIn hsize⟩
  obtain ⟨old, hold, hparent⟩ : ∃ old, s.get? id' = some old ∧ old.parent = some p := by
    rw [get?_bind] at hs
    split at hs
    · obtain ⟨old, hold, rfl⟩ := Option.map_eq_some_iff.1 hs
      exact ⟨old, hold, hp⟩
    · exact ⟨scope, hs, hp⟩
  obtain ⟨hhas, hlt⟩ := h.parent id' old p hold hparent
  exact ⟨hhas.mono hsize, hlt⟩

theorem WellFormed.bindAll (h : s.WellFormed) (id : ScopeId) {bindings : List (Text × Value)}
    (hb : ∀ b ∈ bindings, b.2.LivesIn s) : (s.bindAll id bindings).WellFormed := by
  induction bindings generalizing s with
  | nil => exact h
  | cons b rest ih =>
    refine ih (h.bind id b.1 (hb b (by simp))) fun b' hb' => ?_
    exact (hb b' (by simp [hb'])).mono (by simp)

/-- A new scope is younger than its parent, because it is younger than all that are there. -/
theorem WellFormed.add (h : s.WellFormed) (hp : s.Has p) : (s.add (some p)).2.WellFormed := by
  have hsize : s.size ≤ (s.add (some p)).2.size := by simp
  refine ⟨fun id scope q hs hq => ?_, (h.bound.add (some p)).livesIn hsize⟩
  rw [get?_add] at hs
  split at hs
  · rename_i hid
    cases hs
    cases hq
    exact ⟨hp.mono hsize, hid ▸ has_iff.1 hp⟩
  · obtain ⟨hhas, hlt⟩ := h.parent id scope q hs hq
    exact ⟨hhas.mono hsize, hlt⟩

end Store

/-- Nothing that a machine refers to is missing, in the store and in the signals that left calls. -/
structure Machine.WellFormed (m : Machine) : Prop where
  store : m.store.WellFormed
  escaped : ∀ v ∈ m.escaped, v.LivesIn m.store

namespace Machine

variable {m : Machine}

theorem wellFormed_initial : Machine.initial.WellFormed := ⟨Store.wellFormed_initial, by simp [initial]⟩

theorem size_enter (m : Machine) (parent : ScopeId) (bindings : List (Text × Value)) :
    (m.enter parent bindings).2.store.size = m.store.size + 1 := by
  simp [enter]

theorem size_le_enter (m : Machine) (parent : ScopeId) (bindings : List (Text × Value)) :
    m.store.size ≤ (m.enter parent bindings).2.store.size := by
  rw [size_enter]
  exact Nat.le_succ _

theorem has_enter (m : Machine) (parent : ScopeId) (bindings : List (Text × Value)) :
    (m.enter parent bindings).2.store.Has (m.enter parent bindings).1 := by
  rw [Store.has_iff, size_enter]
  exact Nat.lt_succ_self m.store.size

theorem size_le_bind (m : Machine) (scope : ScopeId) (name : Text) (v : Value) :
    m.store.size ≤ (m.bind scope name v).store.size := by
  simp [Machine.bind]

theorem WellFormed.bind (h : m.WellFormed) (scope : ScopeId) (name : Text) {v : Value} (hv : v.LivesIn m.store) :
    (m.bind scope name v).WellFormed :=
  ⟨h.store.bind scope name hv, fun w hw => (h.escaped w hw).mono (m.size_le_bind scope name v)⟩

theorem WellFormed.escape (h : m.WellFormed) {v : Value} (hv : v.LivesIn m.store) : (m.escape v).WellFormed :=
  ⟨h.store, List.forall_mem_cons.2 ⟨hv, h.escaped⟩⟩

/-- A call makes a scope below the one that its function was made in. -/
theorem WellFormed.enter (h : m.WellFormed) {parent : ScopeId} (hp : m.store.Has parent) (params : List Text)
    {args : List Value} (hargs : ∀ v ∈ args, v.LivesIn m.store) :
    (m.enter parent (params.zip args)).2.WellFormed := by
  refine ⟨(h.store.add hp).bindAll _ fun b hb => ?_, fun v hv => ?_⟩
  · exact (hargs b.2 (List.of_mem_zip hb).2).mono (by simp)
  · exact (h.escaped v hv).mono (m.size_le_enter parent _)

end Machine

/-! ## Running code -/

/-- All code may run in any scope that is there, on machines that nothing is missing from; scopes are only added. -/
def scoping : Discipline where
  Sound := Machine.WellFormed
  Fits m v := v.LivesIn m.store
  Home m scope := m.store.Has scope
  Allows _ := True
  Leads _ m m' := m.store.size ≤ m'.store.size
  leads_refl _ _ := Nat.le_refl _
  leads_trans h h' := Nat.le_trans h h'
  fits_leads h hv := hv.mono h
  home_leads h hs := hs.mono h
  part _ _ := trivial
  nil _ := Value.forall_functions_of_scalar rfl
  bool _ _ := Value.forall_functions_of_scalar rfl
  literal := fun _ l _ => Value.forall_functions_of_scalar (by cases l <;> rfl)
  operator h _ _ := Value.forall_functions_of_scalar (Operator.apply_scalar h)
  negateInt _ := Value.forall_functions_of_scalar rfl
  negateFloat _ := Value.forall_functions_of_scalar rfl
  tuple _ _ hvs := Value.forall_functions_tuple.2 hvs
  pair ha hb := Value.forall_functions_tuple.2 (by simpa using ⟨ha, hb⟩)
  item h hv := Value.forall_functions_tuple.1 h _ hv
  payload h := h
  function _ hs := Value.livesIn_fn.2 hs
  lookup := fun {_ scope} name hm _ =>
    hm.store.bound.lookup (Value.forall_functions_of_scalar rfl) scope name
  bind := fun {m scope name _ v} _ hm _ hv => ⟨hm.bind scope name hv, m.size_le_bind scope name v⟩
  body _ := trivial
  enter := fun {m f _} hm hf hargs _ => ⟨hm.enter (Value.livesIn_fn.1 hf) f.params hargs, m.has_enter f.scope _⟩
  leave := fun {m _ _ parent bindings} h => Nat.le_trans (m.size_le_enter parent bindings) h
  escape _ _ hm hv := ⟨hm.escape hv, Nat.le_refl _⟩

theorem scoping_gives {m : Machine} {v : Value} (h : scoping.Gives m v) : v.LivesIn m.store := by
  rcases h with h | ⟨kind, payload, rfl, h⟩
  · exact h
  · exact h

/-! ## The way outwards -/

namespace Store

variable {s : Store} {id : ScopeId} {ids : List ScopeId} {name : Text} {v : Value}

/-- The way outwards from a scope: the scope itself, its parent, and so on, up to a scope that has none. -/
inductive Outward (s : Store) : ScopeId → List ScopeId → Prop where
  | last {id : ScopeId} {scope : Scope} (hs : s.get? id = some scope) (hp : scope.parent = none) : Outward s id [id]
  | next {id p : ScopeId} {scope : Scope} {ids : List ScopeId} (hs : s.get? id = some scope)
      (hp : scope.parent = some p) (h : Outward s p ids) : Outward s id (id :: ids)

/-- The value that a scope of a store itself binds a name to. -/
def own? (s : Store) (name : Text) (id : ScopeId) : Option Value := (s.get? id).bind fun scope => scope.get? name

/-- The value of a name on a way: the nearest scope that binds it does so to this value, or none binds it and the
value is nil. -/
inductive Nearest (s : Store) (name : Text) : List ScopeId → Value → Prop where
  | bound {nearer farther : List ScopeId} {id : ScopeId} {v : Value} (hnearer : ∀ j ∈ nearer, s.own? name j = none)
      (hv : s.own? name id = some v) : Nearest s name (nearer ++ id :: farther) v
  | unbound {ids : List ScopeId} (h : ∀ j ∈ ids, s.own? name j = none) : Nearest s name ids .nil

/-- From every scope there is a way outwards, on which each scope is older than those before it, and a name has the
value that it has on this way. -/
def Searchable (s : Store) : Prop :=
  ∀ id, s.Has id → ∃ ids, s.Outward id ids ∧ ids.Pairwise (· > ·) ∧ ∀ name, s.Nearest name ids (s.lookup id name)

/-- The way outwards ends. The induction is on the age of the scope. -/
theorem WellFormed.exists_outward (h : s.WellFormed) (hid : s.Has id) : ∃ ids, s.Outward id ids := by
  induction id using Nat.strongRecOn with
  | ind id ih =>
    obtain ⟨scope, hs⟩ := hid
    cases hp : scope.parent with
    | none => exact ⟨[id], .last hs hp⟩
    | some p =>
      obtain ⟨hhas, hlt⟩ := h.parent id scope p hs hp
      obtain ⟨ids, hids⟩ := ih p hlt hhas
      exact ⟨id :: ids, .next hs hp hids⟩

theorem Outward.le (ho : s.Outward id ids) (h : s.WellFormed) : ∀ j ∈ ids, j ≤ id := by
  induction ho with
  | last => simp
  | next hs hp _ ih =>
    have hlt := (h.parent _ _ _ hs hp).2
    exact List.forall_mem_cons.2 ⟨Nat.le_refl _, fun j hj => Nat.le_of_lt (Nat.lt_of_le_of_lt (ih j hj) hlt)⟩

theorem Outward.older (ho : s.Outward id ids) (h : s.WellFormed) : ids.Pairwise (· > ·) := by
  induction ho with
  | last => simp
  | next hs hp ho ih =>
    have hlt := (h.parent _ _ _ hs hp).2
    exact List.pairwise_cons.2 ⟨fun j hj => Nat.lt_of_le_of_lt (ho.le h j hj) hlt, ih⟩

/-- The scopes that are searched are those on the way outwards: no parent is left out for not being older. -/
theorem Outward.findSome?_chain (ho : s.Outward id ids) (h : s.WellFormed) (name : Text) :
    (s.chain id).findSome? (fun scope => scope.get? name) = ids.findSome? (s.own? name) := by
  induction ho with
  | last hs hp =>
    rw [chain, hs]
    simp [hp, own?, hs]
  | next hs hp _ ih =>
    have hlt := (h.parent _ _ _ hs hp).2
    rw [chain, hs]
    simp [hp, hlt, ih, own?, hs, List.findSome?_cons]

theorem nearest_findSome? (s : Store) (name : Text) (ids : List ScopeId) :
    s.Nearest name ids ((ids.findSome? (s.own? name)).getD .nil) := by
  cases hf : ids.findSome? (s.own? name) with
  | none => exact .unbound (List.findSome?_eq_none_iff.1 hf)
  | some v =>
    obtain ⟨nearer, id, farther, rfl, hv, hnearer⟩ := List.findSome?_eq_some_iff.1 hf
    exact .bound hnearer hv

theorem Outward.nearest (ho : s.Outward id ids) (h : s.WellFormed) (name : Text) :
    s.Nearest name ids (s.lookup id name) := by
  rw [lookup, ho.findSome?_chain h name]
  exact nearest_findSome? s name ids

theorem WellFormed.searchable (h : s.WellFormed) : s.Searchable := by
  intro id hid
  obtain ⟨ids, ho⟩ := h.exists_outward hid
  exact ⟨ids, ho, ho.older h, ho.nearest h⟩

end Store

/-! ## Every moment of a run -/

/-- The scope that code runs in is there, or those of the function that is called and of the functions in its
arguments. -/
def Moment.Placed : Moment → Prop
  | ⟨.code _ scope _, m⟩ => m.store.Has scope
  | ⟨.call _ f args _, m⟩ => m.store.Has f.scope ∧ ∀ v ∈ args, v.LivesIn m.store

theorem Moment.placed_of_admits {t : Moment} (h : scoping.Admits t) : t.Placed := by
  obtain ⟨task, m⟩ := t
  cases task with
  | code => exact h.2.1
  | call depth f args pos => exact ⟨Value.livesIn_fn.1 h.2.1, h.2.2⟩

/-- Nothing that a machine refers to is ever missing, after any sources that were run in one scope, which was empty at
first, and at every moment of the run of any program after them, whatever comes of it. Every parent is there and is
older than its child, and the scope of every function is there, whether the function is bound, called, handed to a call
or given as a value, by itself, in tuples or in a signal. So the way outwards from any scope ends, and a name has the
value that the nearest scope on it binds it to, or nil. -/
theorem scopes_stay_well_formed (limits : Limits) (sources : List (Text × Text)) :
    let m := runAll limits Store.root .initial sources
    (m.WellFormed ∧ m.store.Searchable) ∧
    ∀ (p : Program) (t : Moment), Moment.During limits (p.start limits Store.root m) t →
      (t.machine.WellFormed ∧ t.machine.store.Searchable ∧ t.Placed) ∧
      (t.outcome limits).2.WellFormed ∧ (t.outcome limits).2.store.Searchable ∧
        ∀ v, (t.outcome limits).1 = .ok v → v.LivesIn (t.outcome limits).2.store := by
  intro m
  have hroot : Machine.initial.store.Has Store.root := ⟨.empty none, rfl⟩
  obtain ⟨hm, hhome⟩ : m.WellFormed ∧ m.store.Has Store.root :=
    scoping.runAll_sound (fun _ _ _ => trivial) Machine.wellFormed_initial hroot sources
  refine ⟨⟨hm, hm.store.searchable⟩, fun p t ht => ?_⟩
  have hstart : scoping.Admits (p.start limits Store.root m) := ⟨hm, hhome, trivial⟩
  have hadmits := hstart.during ht
  have hnow : t.machine.WellFormed := hadmits.sound
  obtain ⟨hafter, hgives⟩ : (t.outcome limits).2.WellFormed ∧ _ := hadmits.outcome limits
  exact ⟨⟨hnow, hnow.store.searchable, Moment.placed_of_admits hadmits⟩, hafter, hafter.store.searchable,
    fun v hv => scoping_gives (hgives v hv)⟩

/-- A function that is bound in the scope it was made in, and called: its body runs in a scope below, from where the name
of the function is found by going outwards. -/
theorem scopes_stay_well_formed_cyclic :
    ∃ root p t f, (parse .standard [] "f=fn()\x7bf\x7d;f()").result = .ok root ∧ Program.compile .standard root = .ok p ∧
      Moment.During .standard (p.start .standard Store.root .initial) t ∧ t.machine.WellFormed ∧
      t.machine.store.lookup 1 "f" = .fn f ∧ f.scope = Store.root ∧
      ∃ ids, t.machine.store.Outward 1 ids ∧ ids.Pairwise (· > ·) ∧ t.machine.store.Nearest "f" ids (.fn f) := by
  let place (column : Nat) : Position := ⟨1, column, []⟩
  let name (column : Nat) : Node := ⟨.ident, "f", [], true, place column⟩
  let group (column : Nat) : Node := ⟨.lpar, "(", [], true, place column⟩
  let body : Node := ⟨.lbrace, "\x7b", [name 8], true, place 7⟩
  let function : Node := ⟨.function, "fn", [group 5, body], true, place 3⟩
  let binding : Node := ⟨.assign, "=", [name 1, function], true, place 2⟩
  let root : Node := (Tree.root []).into .lbrace "\x7b" [binding, ⟨.apply, "call", [name 11, group 12], true, place 11⟩]
  let f : Function := ⟨[], body, .block [.lookup "f"], Store.root⟩
  let bind : Code := .assign "f" (.function [] body f.code)
  let apply : Code := .apply (place 11) (.lookup "f") []
  let p : Program := ⟨root, .block [bind, apply]⟩
  let m : Machine := Machine.initial.bind Store.root "f" (.fn f)
  have hparse : (parse .standard [] "f=fn()\x7bf\x7d;f()").result = .ok root := by decide +kernel
  have hpasses : Task.Passes .standard 1500 Store.root [bind] .initial m := .cons rfl rfl .nil
  have hstatement : Moment.Starts .standard (p.start .standard Store.root .initial) ⟨.code 1500 Store.root apply, m⟩ :=
    @Moment.Starts.statement _ _ _ [bind] _ [] _ _ hpasses
  have hcallee : Moment.outcome .standard ⟨.code 1500 Store.root (.lookup "f"), m⟩ = (.ok (.fn f), m) := by
    with_unfolding_all rfl
  have hcall : Moment.Starts .standard ⟨.code 1500 Store.root apply, m⟩ ⟨.call 1500 f [] (some (place 11)), m⟩ :=
    .call hcallee rfl
  have hbody : Moment.Starts .standard ⟨.call 1500 f [] (some (place 11)), m⟩
      ⟨.code 1499 1 f.code, (m.enter Store.root []).2⟩ := .body rfl
  have hduring := ((Relation.ReflTransGen.single hstatement).tail hcall).tail hbody
  obtain ⟨⟨hm, hsearch, hplaced⟩, -⟩ := (scopes_stay_well_formed .standard []).2 p _ hduring
  obtain ⟨ids, hids, holder, hnearest⟩ := hsearch 1 hplaced
  have hlookup : (m.enter Store.root []).2.store.lookup 1 "f" = .fn f := by with_unfolding_all rfl
  exact ⟨root, p, _, f, hparse, rfl, hduring, hm, hlookup, rfl, ids, hids, holder, hlookup ▸ hnearest "f"⟩

end Kettle
