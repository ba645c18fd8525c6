/-
Signals are never kept. A run that starts with bindings that hold no signals never binds one, never
puts one into a tuple or into another signal, and never hands one to a function: every computation
gives a value without signals in it, or one signal around such a value. A call takes the value out of
a return signal, so it never gives one.
-/
import Kettle.Proofs.Eval.Frame

namespace Kettle

/-! ## Values and machines without signals -/

namespace Value

mutual

/-- Whether no signal is in a value, at any depth. -/
def plain : Value → Bool
  | tuple items => plainAll items
  | flow .. => false
  | _ => true

/-- Whether no signal is in any of some values. -/
def plainAll : List Value → Bool
  | [] => true
  | v :: vs => plain v && plainAll vs

end

theorem plainAll_iff {vs : List Value} : plainAll vs = true ↔ ∀ v ∈ vs, v.plain = true := by
  induction vs with
  | nil => simp [plainAll]
  | cons v vs ih => simp [plainAll, ih]

@[simp] theorem plain_tuple {vs : List Value} : (tuple vs).plain = true ↔ ∀ v ∈ vs, v.plain = true := by
  rw [plain, plainAll_iff]

/-- What a computation may give: a value without signals, or a signal with such a payload. -/
def Clean (v : Value) : Prop := v.plain = true ∨ ∃ kind payload, v = flow kind payload ∧ payload.plain = true

theorem plain_literal (l : Literal) : l.value.plain = true := by cases l <;> rfl

theorem plain_of_scalar {v : Value} (h : v.isScalar = true) : v.plain = true := by
  cases v <;> first | rfl | cases h

end Value

/-- A scope binds no signal, and nothing with a signal in it. -/
def Scope.Plain (s : Scope) : Prop := ∀ name v, s.get? name = some v → v.plain = true

/-- No scope binds a signal, or anything with a signal in it. -/
def Store.Plain (s : Store) : Prop := ∀ id scope, s.get? id = some scope → scope.Plain

/-- No scope of the machine binds a signal, or anything with a signal in it. -/
def Machine.Plain (m : Machine) : Prop := m.store.Plain

theorem Machine.plain_initial : Machine.initial.Plain := Store.binds_initial _

/-! ## Running code -/

/-- All code may run, on machines without signals, and the values that fit are those without signals. -/
def signals : Discipline where
  Sound := Machine.Plain
  Fits _ v := v.plain = true
  Home _ _ := True
  Allows _ := True
  Leads _ _ _ := True
  leads_refl _ _ := trivial
  leads_trans _ _ := trivial
  fits_leads _ hv := hv
  home_leads _ _ := trivial
  part _ _ := trivial
  nil _ := rfl
  bool _ _ := rfl
  literal _ l _ := Value.plain_literal l
  operator h _ _ := Value.plain_of_scalar (Operator.apply_scalar h)
  negateInt _ := rfl
  negateFloat _ := rfl
  tuple _ _ hvs := Value.plain_tuple.2 hvs
  pair ha hb := Value.plain_tuple.2 (by simpa using ⟨ha, hb⟩)
  item h hv := Value.plain_tuple.1 h _ hv
  payload h := by cases h
  function _ _ := rfl
  lookup := fun {_ scope} name hm _ => Store.Binds.lookup hm rfl scope name
  bind := fun {_ scope name _ _} _ hm _ hv => ⟨Store.Binds.bind hm scope name hv, trivial⟩
  body _ := trivial
  enter := fun {_ f _} hm _ hargs _ => ⟨Store.Binds.enter hm f.scope f.params hargs, trivial⟩
  leave _ := trivial
  escape _ _ hm _ := ⟨hm, trivial⟩

theorem signals_returns_ne_ret {m : Machine} {v payload : Value} (h : signals.Returns m v) :
    v ≠ .flow .ret payload := by
  rintro rfl
  rcases h with h | ⟨kind, payload, he, hk, -⟩
  · cases h
  · exact hk (Value.flow.inj he).1.symm

/-- No signal is bound anywhere, and none is handed to the function if the task is a call. -/
structure Moment.Plain (t : Moment) : Prop where
  machine : t.machine.Plain
  args : ∀ depth f args pos, t.task = .call depth f args pos → ∀ v ∈ args, v.plain = true

theorem Moment.plain_of_admits {t : Moment} (h : signals.Admits t) : t.Plain := by
  refine ⟨h.sound, ?_⟩
  rintro depth f args pos he
  obtain ⟨task, m⟩ := t
  cases he
  exact h.2.2

/-- A call gives no return signal. -/
theorem Moment.call_ne_ret {limits : Limits} {t : Moment} (h : signals.Admits t) (ht : t.task.isCall = true)
    (payload : Value) : (t.outcome limits).1 ≠ .ok (.flow .ret payload) := by
  obtain ⟨task, m⟩ := t
  cases task with
  | code => cases ht
  | call depth f args pos =>
    have hcall := h.keeps_call limits 0
    exact fun he => signals_returns_ne_ret (hcall.2 _ he) rfl

/-- Signals never become data. After any sources that were run in one scope, and at every moment of the
run of the next one, no signal is bound or handed to a function, and whatever is done gives a value
without signals or one signal around such a value; and no call gives a return signal, neither one that
is made in the course of the run nor one that is made afterwards. -/
theorem signals_never_become_data (limits : Limits) (scope : ScopeId) (m₀ : Machine) (h₀ : m₀.Plain)
    (sources : List (Text × Text)) :
    (runAll limits scope m₀ sources).Plain ∧
    (∀ source text root p, (parse limits source text).result = .ok root →
      Program.compile limits root = .ok p →
      ∀ t, Moment.During limits (p.start limits scope (runAll limits scope m₀ sources)) t →
        t.Plain ∧ (t.outcome limits).2.Plain ∧ (∀ v, (t.outcome limits).1 = .ok v → v.Clean) ∧
          (t.task.isCall = true → ∀ payload, (t.outcome limits).1 ≠ .ok (.flow .ret payload))) ∧
    ∀ (f : Function) args, (∀ v ∈ args, v.plain = true) →
      ∀ payload, (f.call limits args (runAll limits scope m₀ sources)).1 ≠ .ok (.flow .ret payload) := by
  obtain ⟨hm, -⟩ : signals.Sound (runAll limits scope m₀ sources) ∧ _ :=
    Discipline.runAll_sound (fun _ _ _ => trivial) h₀ trivial sources
  refine ⟨hm, ?_, ?_⟩
  · intro source text root p _ _ t ht
    have hstart : signals.Admits (p.start limits scope (runAll limits scope m₀ sources)) := ⟨hm, trivial, trivial⟩
    have hadmits := hstart.during ht
    have hafter := hadmits.outcome limits
    exact ⟨Moment.plain_of_admits hadmits, hafter.1, hafter.2, Moment.call_ne_ret hadmits⟩
  · intro f args hargs payload he
    have hcall := signals.call_runs limits limits.calls scope f args none _ hm rfl hargs
    unfold Function.call at he
    exact signals_returns_ne_ret (hcall.2 _ (Program.finish_eq_ok he)) rfl

/-- A function that leaves a loop that is not there, called in the course of a binding. -/
theorem signals_never_become_data_escaped :
    (runAll .standard 0 .initial [("", "f = fn(a) \x7b break \x7d\nx = (f(1), 2)")]).Plain :=
  (signals_never_become_data .standard 0 .initial Machine.plain_initial
    [("", "f = fn(a) \x7b break \x7d\nx = (f(1), 2)")]).1

end Kettle
