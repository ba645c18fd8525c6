/-
The reserved names. An identifier with one of them stands for its literal and is never looked up. No
assignment binds one of them, but a parameter may have such a name, and a call then binds it in its own scope,
where it cannot be read. Every other binding is read by the identifier of its name.
-/
import Kettle.Proofs.Program.Rejection

namespace Kettle

/-! ## The names that code binds -/

/-- Whatever a compilation gives has the property `Q`. -/
def Yields {α : Type} (Q : α → Prop) (x : Except Fault α) : Prop := ∀ a, x = .ok a → Q a

section Yields

variable {α β : Type} {Q : α → Prop} {R : β → Prop}

theorem yields_ok {a : α} (h : Q a) : Yields Q (.ok a) := by
  rintro _ ⟨⟩
  exact h

theorem yields_error (f : Fault) : Yields Q (.error f) := by rintro _ ⟨⟩

theorem Yields.bind {x : Except Fault α} {f : α → Except Fault β} (hx : Yields Q x) (hf : ∀ a, Q a → Yields R (f a)) :
    Yields R (x >>= f) := by
  cases x with
  | error e => exact yields_error e
  | ok a => exact hf a (hx a rfl)

theorem Yields.mapM {f : α → Except Fault β} (hf : ∀ a, Yields R (f a)) (as : List α) :
    Yields (fun bs => ∀ b ∈ bs, R b) (as.mapM f) := by
  induction as with
  | nil => exact yields_ok (by simp)
  | cons a as ih =>
    rw [List.mapM_cons]
    exact (hf a).bind fun b hb => ih.bind fun bs hbs => yields_ok (List.forall_mem_cons.2 ⟨hb, hbs⟩)

theorem yields_any (x : Except Fault α) : Yields (fun _ => True) x := fun _ _ => trivial

end Yields

namespace Code

variable {c c' : Code} {limits : Limits} {top : Position}

/-- No assignment in code binds a reserved name. -/
def SparesReserved (c : Code) : Prop :=
  ∀ name value, c.Piece (.assign name value) → Literal.ofName? name = none

theorem sparesReserved_of_inner (hc : ∀ name value, c = .assign name value → Literal.ofName? name = none)
    (h : ∀ c' ∈ c.inner, c'.SparesReserved) : c.SparesReserved := by
  intro name value hpiece
  rcases Relation.ReflTransGen.cases_head hpiece with heq | ⟨c', hc', hpiece'⟩
  · exact hc name value heq
  · exact h c' hc' name value hpiece'

theorem yields_target (n : Node) : Yields (fun name => Literal.ofName? name = none) (target n) := by
  unfold target
  split
  · exact yields_error _
  · split
    · exact yields_error _
    · rename_i hname
      exact yields_ok (by simpa using hname)

/-- Compiling checks the name of every assignment. -/
theorem compileAt_sparesReserved : ∀ (depth : Nat) (n : Node), Yields SparesReserved (compileAt limits top depth n)
  | 0, _ => yields_error _
  | depth + 1, n => by
    have hsub := @compileAt_sparesReserved depth
    have hall := Yields.mapM hsub
    -- what is no assignment is in order if the code inside is
    have hinner : ∀ {c : Code}, (∀ name value, c ≠ .assign name value) → (∀ c' ∈ c.inner, c'.SparesReserved) →
        Yields SparesReserved (.ok c) :=
      fun hc h => yields_ok (sparesReserved_of_inner (fun name value he => absurd he (hc name value)) h)
    unfold compileAt
    split
    · exact (hall n.children).bind fun cs hcs => hinner (by simp) hcs
    · split
      · exact hinner (by simp) (by simp [inner, parts])
      · exact hsub _
      · exact yields_error _
    · exact (hall n.children).bind fun cs hcs => hinner (by simp) hcs
    · split <;> exact hinner (by simp) (by simp [inner, parts])
    · exact (yields_any _).bind fun l _ => hinner (by simp) (by simp [inner, parts])
    · exact (yields_any _).bind fun l _ => hinner (by simp) (by simp [inner, parts])
    · exact (yields_any _).bind fun l _ => hinner (by simp) (by simp [inner, parts])
    · exact (yields_any _).bind fun l _ => hinner (by simp) (by simp [inner, parts])
    · refine (yields_any _).bind fun sides _ => (yields_target sides.1).bind fun name hname => ?_
      refine (hsub sides.2).bind fun value hvalue => yields_ok (sparesReserved_of_inner ?_ ?_)
      · rintro _ _ ⟨⟩
        exact hname
      · simpa [inner, parts] using hvalue
    · refine (yields_any _).bind fun sides _ => (hsub sides.1).bind fun left hl => (hsub sides.2).bind fun right hr => ?_
      exact hinner (by simp) (by simpa [inner, parts] using ⟨hl, hr⟩)
    · refine (yields_any _).bind fun sides _ => (hsub sides.1).bind fun left hl => (hsub sides.2).bind fun right hr => ?_
      exact hinner (by simp) (by simpa [inner, parts] using ⟨hl, hr⟩)
    · refine (yields_any _).bind fun operand _ => (hsub operand).bind fun c hc => ?_
      exact hinner (by simp) (by simpa [inner, parts] using hc)
    · refine (yields_any _).bind fun operand _ => (hsub operand).bind fun c hc => ?_
      exact hinner (by simp) (by simpa [inner, parts] using hc)
    · split
      · refine (yields_any _).bind fun names _ => ?_
        split
        · exact yields_error _
        · exact (hsub _).bind fun c hc => hinner (by simp) (by simpa [inner] using hc)
      · exact yields_error _
    · split
      · refine (hsub _).bind fun callee hcallee => (yields_any _).bind fun args _ => (hall args).bind fun cs hcs => ?_
        exact hinner (by simp) (by simpa [inner, parts] using ⟨hcallee, hcs⟩)
      · exact yields_error _
    · split
      · refine hinner (by simp) ?_
        simpa [inner, parts] using sparesReserved_of_inner (by simp) (by simp [inner, parts])
      · exact (hsub _).bind fun c hc => hinner (by simp) (by simpa [inner, parts] using hc)
      · exact yields_error _
    · exact hinner (by simp) (by simp [inner, parts])
    · exact hinner (by simp) (by simp [inner, parts])
    · split
      · refine (yields_any _).bind fun sides _ => (hsub sides.1).bind fun left hl =>
          (hsub sides.2).bind fun right hr => ?_
        exact hinner (by simp) (by simpa [inner, parts] using ⟨hl, hr⟩)
      · exact yields_error _

/-- No assignment in code binds a reserved name, and all parameters in it have a property. -/
structure Named (K : Text → Prop) (c : Code) : Prop where
  assigned : c.SparesReserved
  params : ∀ params body code, c.Piece (.function params body code) → ∀ name ∈ params, K name

variable {K : Text → Prop}

theorem Named.inner (h : c.Named K) (hc : c' ∈ c.inner) : c'.Named K :=
  ⟨fun name value hpiece => h.assigned name value (hpiece.head hc),
    fun params body code hpiece => h.params params body code (hpiece.head hc)⟩

end Code

/-- The parameters of a function have a property, and so have those in its code. -/
structure Function.Named (K : Text → Prop) (f : Function) : Prop where
  params : ∀ name ∈ f.params, K name
  code : f.code.Named K

/-- All functions in a value are named as they should be. -/
def Value.Named (K : Text → Prop) (v : Value) : Prop := ∀ f ∈ v.functions, f.Named K

theorem Value.named_of_scalar {K : Text → Prop} {v : Value} (h : v.isScalar = true) : v.Named K :=
  forall_functions_of_scalar h

theorem Value.named_tuple {K : Text → Prop} {vs : List Value} : (Value.tuple vs).Named K ↔ ∀ v ∈ vs, v.Named K :=
  forall_functions_tuple

/-! ## The names that scopes bind -/

namespace Store

variable {s : Store} {id : ScopeId} {scope : Scope} {name : Text} {v : Value} {K : Text → Prop}

/-- Reserved names are bound as parameters only, and so never in the first scope. -/
def Reserves (K : Text → Prop) (s : Store) : Prop :=
  ∀ id scope, s.get? id = some scope → ∀ name v, scope.get? name = some v → Literal.ofName? name ≠ none →
    id ≠ Store.root ∧ K name

theorem reserves_initial (K : Text → Prop) : Store.initial.Reserves K := by
  intro id scope hs name v hv
  exact (binds_initial (fun _ => False) id scope hs name v hv).elim

theorem Reserves.bind (h : s.Reserves K) (id : ScopeId) (hname : Literal.ofName? name = none) (v : Value) :
    (s.bind id name v).Reserves K := by
  intro id' scope hs name' v' hv' hreserved
  rw [get?_bind] at hs
  split at hs
  · obtain ⟨old, hold, rfl⟩ := Option.map_eq_some_iff.1 hs
    rw [Scope.get?_set, if_neg (fun he : name' = name => hreserved (he ▸ hname))] at hv'
    exact h id' old hold name' v' hv' hreserved
  · exact h id' scope hs name' v' hv' hreserved

/-- What a scope binds after several bindings was bound before, or is one of their names. -/
theorem get?_bindAll_own {bindings : List (Text × Value)} (hs : (s.bindAll id bindings).get? id = some scope)
    (hv : scope.get? name = some v) :
    (∃ old, s.get? id = some old ∧ old.get? name = some v) ∨ name ∈ bindings.map Prod.fst := by
  induction bindings generalizing s with
  | nil => exact .inl ⟨scope, hs, hv⟩
  | cons b rest ih =>
    rcases ih (s := s.bind id b.1 b.2) hs with ⟨old, hold, hget⟩ | hmem
    · rw [get?_bind, if_pos rfl] at hold
      obtain ⟨first, hfirst, rfl⟩ := Option.map_eq_some_iff.1 hold
      rw [Scope.get?_set] at hget
      split at hget
      · rename_i he
        exact .inr (by simp [he])
      · exact .inl ⟨first, hfirst, hget⟩
    · exact .inr (by simp [hmem])

/-- The scope of a call binds its parameters. -/
theorem Reserves.enter {m : Machine} {params : List Text} (h : m.store.Reserves K) (hsize : Store.root < m.store.size)
    (parent : ScopeId) (hparams : ∀ name ∈ params, K name) (args : List Value) :
    (m.enter parent (params.zip args)).2.store.Reserves K := by
  intro id scope hs name v hv hreserved
  have hs : (((m.store.add (some parent)).2).bindAll m.store.size (params.zip args)).get? id = some scope := hs
  by_cases hid : id = m.store.size
  · subst hid
    refine ⟨Nat.ne_of_gt hsize, ?_⟩
    rcases get?_bindAll_own hs hv with ⟨old, hold, hget⟩ | hmem
    · rw [get?_add, if_pos rfl] at hold
      cases hold
      cases hget
    · obtain ⟨b, hb, rfl⟩ := List.mem_map.1 hmem
      exact hparams b.1 (List.of_mem_zip hb).1
  · rw [get?_bindAll_of_ne hid, get?_add, if_neg hid] at hs
    exact h id scope hs name v hv hreserved

end Store

/-! ## Running code -/

/-- Code that assigns to no reserved name may run where they are bound as parameters only. -/
def naming (K : Text → Prop) : Discipline where
  Sound m := m.store.Binds (Value.Named K) ∧ m.store.Reserves K ∧ Store.root < m.store.size
  Fits _ v := v.Named K
  Home _ _ := True
  Allows := Code.Named K
  Leads _ _ _ := True
  leads_refl _ _ := trivial
  leads_trans _ _ := trivial
  fits_leads _ hv := hv
  home_leads _ _ := trivial
  part h hc := h.inner (Code.parts_subset_inner hc)
  nil _ := Value.named_of_scalar rfl
  bool _ _ := Value.named_of_scalar rfl
  literal := fun _ l _ => Value.named_of_scalar (by cases l <;> rfl)
  operator h _ _ := Value.named_of_scalar (Operator.apply_scalar h)
  negateInt _ := Value.named_of_scalar rfl
  negateFloat _ := Value.named_of_scalar rfl
  tuple _ _ hvs := Value.named_tuple.2 hvs
  pair ha hb := Value.named_tuple.2 (by simpa using ⟨ha, hb⟩)
  item h hv := Value.named_tuple.1 h _ hv
  payload h := h
  function := fun {_ _ params body code} h _ f hf => by
    obtain rfl := List.mem_singleton.1 hf
    exact ⟨h.params params body code .refl, h.inner (by simp [Code.inner])⟩
  lookup := fun {_ scope} name hm _ => hm.1.lookup (Value.named_of_scalar rfl) scope name
  bind := fun {_ scope name value v} h hm _ hv =>
    ⟨⟨hm.1.bind scope name hv, hm.2.1.bind scope (h.assigned name value .refl) v, by simpa [Machine.bind] using hm.2.2⟩,
      trivial⟩
  body hf := (hf _ (by simp [Value.functions])).code
  enter := fun {m f args} hm hf hargs _ =>
    ⟨⟨hm.1.enter f.scope f.params hargs,
      hm.2.1.enter hm.2.2 f.scope (hf f (by simp [Value.functions])).params args,
      hm.2.2.trans_le (m.store.untouched_enter f.scope (f.params.zip args)).size_le⟩, trivial⟩
  leave _ := trivial
  escape _ _ hm _ := ⟨hm, trivial⟩

/-- An identifier with a name, wherever it is compiled, reads a value in a scope. -/
def Reads (limits : Limits) (m : Machine) (scope : ScopeId) (name : Text) (v : Value) : Prop :=
  ∀ n : Node, n.kind = .ident → n.text = name → ∀ top depth, ∃ c, Code.compileAt limits top (depth + 1) n = .ok c ∧
    ∀ call, Eval.exec (Eval.evaluate limits call scope c) m = (.ok v, m)

section Reads

variable {limits : Limits} {m : Machine} {id : ScopeId} {scope : Scope} {name : Text} {v : Value}

/-- What a scope itself binds is what is found from there. -/
theorem Store.lookup_own {s : Store} (hs : s.get? id = some scope) (hv : scope.get? name = some v) :
    s.lookup id name = v := by
  rw [Store.lookup, Store.chain, hs]
  simp [hv]

/-- A binding is read by the identifier of its name, unless the name is reserved. -/
theorem reads_bound (hname : Literal.ofName? name = none) (hs : m.store.get? id = some scope)
    (hv : scope.get? name = some v) : Reads limits m id name v := by
  intro n hk ht top depth
  refine ⟨.lookup name, ?_, fun call => ?_⟩
  · rw [Code.compileAt]
    simp only [hk, ht, hname]
    rfl
  · rw [Eval.evaluate, Eval.exec_lookup, Store.lookup_own hs hv]

/-- A reserved name is read as its literal, whatever is bound. -/
theorem reads_reserved {l : Literal} (hname : Literal.ofName? name = some l) : Reads limits m id name l.value := by
  intro n hk ht top depth
  refine ⟨.literal l, ?_, fun call => ?_⟩
  · rw [Code.compileAt]
    simp only [hk, ht, hname]
    rfl
  · rw [Eval.evaluate]
    rfl

end Reads

/-- A name is a parameter in the program of one of some sources. -/
def IsParameter (limits : Limits) (sources : List (Text × Text)) (name : Text) : Prop :=
  ∃ s ∈ sources, ∃ p, Accepted limits s.1 s.2 p ∧
    ∃ params body code, p.code.Piece (.function params body code) ∧ name ∈ params

/-- Every binding of a machine is read by the identifier of its name, but for parameters with reserved names: those
are bound in the scopes of calls, and the identifier reads the literal instead. -/
def Machine.ReadsBack (limits : Limits) (sources : List (Text × Text)) (m : Machine) : Prop :=
  ∀ id scope name v, m.store.get? id = some scope → scope.get? name = some v →
    (Literal.ofName? name = none ∧ Reads limits m id name v) ∨
      ∃ l, Literal.ofName? name = some l ∧ Reads limits m id name l.value ∧ id ≠ Store.root ∧
        IsParameter limits sources name

section

variable {limits : Limits} {sources : List (Text × Text)} {source text : Text} {p : Program} {m : Machine}

theorem naming_sound_initial (K : Text → Prop) : (naming K).Sound .initial :=
  ⟨Store.binds_initial _, Store.reserves_initial K, by decide⟩

theorem Machine.readsBack_of_sound (h : (naming (IsParameter limits sources)).Sound m) : m.ReadsBack limits sources := by
  intro id scope name v hs hv
  cases hname : Literal.ofName? name with
  | none => exact .inl ⟨rfl, reads_bound hname hs hv⟩
  | some l =>
    obtain ⟨hroot, hparam⟩ := h.2.1 id scope hs name v hv (by simp [hname])
    exact .inr ⟨l, rfl, reads_reserved hname, hroot, hparam⟩

/-- The program of a source binds what it should. -/
theorem Accepted.named (h : Accepted limits source text p) (hmem : (source, text) ∈ sources) :
    p.code.Named (IsParameter limits sources) := by
  refine ⟨?_, fun params body code hpiece name hname => ⟨_, hmem, p, h, params, body, code, hpiece, hname⟩⟩
  exact Code.compileAt_sparesReserved _ _ _ (Program.compile_eq_ok h.compiled).2

theorem runAll_named {earlier : List (Text × Text)} (h : ∀ s ∈ earlier, s ∈ sources) :
    (naming (IsParameter limits sources)).Sound (runAll limits Store.root .initial earlier) := by
  refine (Discipline.runAll_sound_of (fun s hs root p hroot hp => ?_) (naming_sound_initial _) trivial).1
  obtain ⟨rfl, -⟩ := Program.compile_eq_ok hp
  exact Accepted.named ⟨hroot, hp⟩ (h s hs)

end

/-- A function that has a parameter with the name of nil, called with five. -/
def nilParameter : Text := "fn(nil) \x7b nil \x7d(5)"

/-- The body of that function runs in a scope that binds the name to five. -/
theorem nilParameter_during :
    ∃ p t scope, Accepted .standard [] nilParameter p ∧
      Moment.During .standard (p.start .standard Store.root .initial) t ∧
      (∃ depth, t.task = .code depth 1 (.block [.literal .nil])) ∧ t.machine.store.get? 1 = some scope ∧
      scope.get? "nil" = some (.int 5) ∧
      (run .standard [] nilParameter Store.root .initial).result = .ok (.tuple [.bool true, .nil]) := by
  let place (column : Nat) : Position := ⟨1, column, []⟩
  let leaf (kind : Kind) (text : Text) (column : Nat) : Node := ⟨kind, text, [], true, place column⟩
  let body : Node := ⟨.lbrace, "\x7b", [leaf .ident "nil" 11], true, place 9⟩
  let function : Node := ⟨.function, "fn", [⟨.lpar, "(", [leaf .ident "nil" 4], true, place 3⟩, body], true, place 1⟩
  let args : Node := ⟨.lpar, "(", [leaf .number "5" 17], true, place 16⟩
  let root : Node := (Tree.root []).into .lbrace "\x7b" [⟨.apply, "call", [function, args], true, place 1⟩]
  let f : Function := ⟨["nil"], body, .block [.literal .nil], Store.root⟩
  let apply : Code := .apply (place 1) (.function f.params body f.code) [.literal (.int 5)]
  let p : Program := ⟨root, .block [apply]⟩
  have hparse : (parse .standard [] nilParameter).result = .ok root := by decide +kernel
  have hcompile : Program.compile .standard root = .ok p := rfl
  have hstatement : Moment.Starts .standard (p.start .standard Store.root .initial)
      ⟨.code 1500 Store.root apply, .initial⟩ := @Moment.Starts.statement _ _ _ [] _ [] _ _ .nil
  have hcall : Moment.Starts .standard ⟨.code 1500 Store.root apply, .initial⟩
      ⟨.call 1500 f [.int 5] (some (place 1)), .initial⟩ := .call rfl rfl
  have hbody : Moment.Starts .standard ⟨.call 1500 f [.int 5] (some (place 1)), .initial⟩
      ⟨.code 1499 1 f.code, (Machine.initial.enter Store.root [("nil", .int 5)]).2⟩ := .body rfl
  have hduring := ((Relation.ReflTransGen.single hstatement).tail hcall).tail hbody
  refine ⟨p, _, _, ⟨hparse, hcompile⟩, hduring, ⟨1499, rfl⟩, rfl, rfl, ?_⟩
  rw [(run_of_compile hparse hcompile Store.root .initial).1]
  rfl

/-- Only parameters are reserved names that are bound. After any sources that were run in one scope, which was empty at
first, and at every moment of the run of the next one and after it, every binding of every scope is read by the
identifier of its name, unless the name is reserved: such a name is bound in the scope of a call only, never in the
first one, it is a parameter of a function literal in these sources, and the identifier reads the literal. So if no
function literal in them has a reserved parameter, no reserved name is ever bound, and every binding is read. -/
theorem reserved_names_bound_as_parameters_only (limits : Limits) (sources : List (Text × Text)) :
    let m := runAll limits Store.root .initial sources
    m.ReadsBack limits sources ∧
    ∀ source text p, Accepted limits source text p → ∀ t, Moment.During limits (p.start limits Store.root m) t →
      t.machine.ReadsBack limits (sources ++ [(source, text)]) ∧
        (t.outcome limits).2.ReadsBack limits (sources ++ [(source, text)]) := by
  intro m
  refine ⟨Machine.readsBack_of_sound (runAll_named fun s hs => hs), fun source text p hp t ht => ?_⟩
  have hstart : (naming (IsParameter limits (sources ++ [(source, text)]))).Admits (p.start limits Store.root m) :=
    ⟨runAll_named fun s hs => by simp [hs], trivial, hp.named (by simp)⟩
  have hadmits := hstart.during ht
  exact ⟨Machine.readsBack_of_sound hadmits.sound, Machine.readsBack_of_sound (hadmits.outcome limits).1⟩

/-- In the scope of a call with a parameter named nil, the identifier reads nil, and the parameter is found in the source. -/
theorem reserved_names_bound_as_parameters_only_nil :
    ∃ p t scope, Accepted .standard [] nilParameter p ∧
      Moment.During .standard (p.start .standard Store.root .initial) t ∧ t.machine.store.get? 1 = some scope ∧
      scope.get? "nil" = some (.int 5) ∧ Reads .standard t.machine 1 "nil" .nil ∧
      IsParameter .standard [([], nilParameter)] "nil" := by
  obtain ⟨p, t, scope, hp, ht, -, hscope, hbound, -⟩ := nilParameter_during
  obtain ⟨-, hmoments⟩ := reserved_names_bound_as_parameters_only .standard []
  obtain ⟨hreads, -⟩ := hmoments [] nilParameter p hp t ht
  rcases hreads 1 scope "nil" (.int 5) hscope hbound with ⟨hname, -⟩ | ⟨l, hl, hread, -, hparameter⟩
  · cases hname
  · cases hl
    exact ⟨p, t, scope, hp, ht, hscope, hbound, hread, hparameter⟩

/-- A reserved name is bound: in the course of a run that starts with an empty scope, code runs in a scope that binds nil,
and what is bound there is not read. -/
theorem reserved_parameter_bound :
    ∃ p t scope, Accepted .standard [] nilParameter p ∧
      Moment.During .standard (p.start .standard Store.root (runAll .standard Store.root .initial [])) t ∧
      t.machine.store.get? 1 = some scope ∧ scope.get? "nil" = some (.int 5) ∧
      (run .standard [] nilParameter Store.root .initial).result = .ok (.tuple [.bool true, .nil]) := by
  obtain ⟨p, t, scope, hp, ht, -, hscope, hbound, hresult⟩ := nilParameter_during
  exact ⟨p, t, scope, hp, ht, hscope, hbound, hresult⟩

end Kettle
