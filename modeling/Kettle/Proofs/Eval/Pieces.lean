/-
The code that runs. Whatever runs in the course of a run, the bodies of functions that were made by earlier
runs included, is a piece of a program that was parsed and compiled as a whole before it was started. So
nothing is left to be checked while code runs.
-/
import Kettle.Proofs.Eval.Frame

namespace Kettle

/-! ## Pieces of code -/

/-- The code right inside code: its parts, and the body of a function. -/
def Code.inner : Code → List Code
  | .function _ _ code => [code]
  | c => c.parts

theorem Code.parts_subset_inner {c c' : Code} (h : c' ∈ c.parts) : c' ∈ c.inner := by
  cases c <;> first | exact h | cases h

/-- The second code is the first one or somewhere inside it. -/
def Code.Piece (whole c : Code) : Prop := Relation.ReflTransGen (fun c c' => c' ∈ c.inner) whole c

/-- The code is a piece of a program of a source. -/
def Code.Prepared (limits : Limits) (c : Code) : Prop :=
  ∃ root p, Program.FromSource limits root p ∧ p.code.Piece c

theorem Code.Prepared.inner {limits : Limits} {c c' : Code} (h : c.Prepared limits) (hc : c' ∈ c.inner) :
    c'.Prepared limits :=
  let ⟨root, p, hp, hpiece⟩ := h
  ⟨root, p, hp, hpiece.tail hc⟩

theorem Program.FromSource.prepared {limits : Limits} {root : Node} {p : Program} (h : p.FromSource limits root) :
    p.code.Prepared limits := ⟨root, p, h, .refl⟩

/-! ## Functions in values -/

namespace Value

mutual

/-- The functions in a value. -/
def functions : Value → List Function
  | fn f => [f]
  | tuple items => functionsAll items
  | flow _ payload => functions payload
  | _ => []

/-- The functions in some values. -/
def functionsAll : List Value → List Function
  | [] => []
  | v :: vs => functions v ++ functionsAll vs

end

theorem mem_functions_tuple {f : Function} {vs : List Value} : f ∈ (tuple vs).functions ↔ ∃ v ∈ vs, f ∈ v.functions := by
  rw [functions]
  induction vs with
  | nil => simp [functionsAll]
  | cons v vs ih => simp [functionsAll, ih]

theorem functions_of_scalar {v : Value} (h : v.isScalar = true) : v.functions = [] := by
  cases v with
  | tuple items => cases h
  | fn f => cases h
  | flow kind payload => cases h
  | _ => rfl

theorem forall_functions_tuple {P : Function → Prop} {vs : List Value} :
    (∀ f ∈ (tuple vs).functions, P f) ↔ ∀ v ∈ vs, ∀ f ∈ v.functions, P f := by
  constructor
  · intro h v hv f hf
    exact h f (mem_functions_tuple.2 ⟨v, hv, hf⟩)
  · intro h f hf
    obtain ⟨v, hv, hf⟩ := mem_functions_tuple.1 hf
    exact h v hv f hf

theorem forall_functions_of_scalar {P : Function → Prop} {v : Value} (h : v.isScalar = true) :
    ∀ f ∈ v.functions, P f := by
  intro f hf
  rw [functions_of_scalar h] at hf
  cases hf

/-- The code of all functions in a value has a property. -/
def Codes (A : Code → Prop) (v : Value) : Prop := ∀ f ∈ v.functions, A f.code

variable {A : Code → Prop}

theorem codes_tuple {vs : List Value} : (tuple vs).Codes A ↔ ∀ v ∈ vs, v.Codes A := forall_functions_tuple

theorem codes_of_scalar {v : Value} (h : v.isScalar = true) : v.Codes A := forall_functions_of_scalar h

end Value

/-! ## Running code -/

/-- A property of code that passes to the code inside holds of all code that runs. -/
def pieces (A : Code → Prop) (hA : ∀ {c c' : Code}, A c → c' ∈ c.inner → A c') : Discipline where
  Sound m := m.store.Binds (Value.Codes A)
  Fits _ v := v.Codes A
  Home _ _ := True
  Allows := A
  Leads _ _ _ := True
  leads_refl _ _ := trivial
  leads_trans _ _ := trivial
  fits_leads _ hv := hv
  home_leads _ _ := trivial
  part h hc := hA h (Code.parts_subset_inner hc)
  nil _ := Value.codes_of_scalar rfl
  bool _ _ := Value.codes_of_scalar rfl
  literal := fun _ l _ => Value.codes_of_scalar (by cases l <;> rfl)
  operator h _ _ := Value.codes_of_scalar (Operator.apply_scalar h)
  negateInt _ := Value.codes_of_scalar rfl
  negateFloat _ := Value.codes_of_scalar rfl
  tuple _ _ hvs := Value.codes_tuple.2 hvs
  pair ha hb := Value.codes_tuple.2 (by simpa using ⟨ha, hb⟩)
  item h hv := Value.codes_tuple.1 h _ hv
  payload h := h
  function := fun {_ _ _ _ _} h _ f hf => by
    obtain rfl := List.mem_singleton.1 hf
    exact hA h (by simp [Code.inner])
  lookup := fun {_ scope} name hm _ => hm.lookup (Value.codes_of_scalar rfl) scope name
  bind := fun {_ scope name _ _} _ hm _ hv => ⟨hm.bind scope name hv, trivial⟩
  body hf := hf _ (by simp [Value.functions])
  enter := fun {_ f _} hm _ hargs _ => ⟨hm.enter f.scope f.params hargs, trivial⟩
  leave _ := trivial
  escape _ _ hm _ := ⟨hm, trivial⟩

/-- All that runs is prepared: the code or the function of the task, and every function that is handed to it
or bound anywhere. -/
structure Moment.Prepared (limits : Limits) (t : Moment) : Prop where
  bound : t.machine.store.Binds (Value.Codes (Code.Prepared limits))
  code : ∀ depth scope c, t.task = .code depth scope c → c.Prepared limits
  called : ∀ depth f args pos, t.task = .call depth f args pos →
    f.code.Prepared limits ∧ ∀ v ∈ args, v.Codes (Code.Prepared limits)

theorem Moment.prepared_of_admits {limits : Limits} {t : Moment}
    (h : (pieces (Code.Prepared limits) Code.Prepared.inner).Admits t) : t.Prepared limits := by
  obtain ⟨task, m⟩ := t
  cases task with
  | code depth scope c =>
    refine ⟨h.sound, ?_, by rintro _ _ _ _ ⟨⟩⟩
    rintro _ _ _ ⟨⟩
    exact h.2.2
  | call depth f args pos =>
    refine ⟨h.sound, by rintro _ _ _ ⟨⟩, ?_⟩
    rintro _ _ _ _ ⟨⟩
    exact ⟨h.2.1 f (by simp [Value.functions]), h.2.2⟩

end Kettle
