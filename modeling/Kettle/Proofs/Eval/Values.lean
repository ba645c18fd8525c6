/-
The values that runs make. Every integer has 64 bits, no tuple has exactly one item, and every function has
parameters that differ and a block for its body, whose code gives a signal or a pair. Literals, operators,
tuples and functions make such values only, because code is checked before it runs, and scopes keep them
from one run to the next.
-/
import Kettle.Proofs.Code.Checked
import Kettle.Proofs.Decimal.Finite
import Kettle.Proofs.Eval.Frame
import Mathlib.Algebra.Group.Int.Defs

namespace Kettle

/-! ## Integers -/

theorem Word.fits_iff {n : Int} : fits n = true ↔ -2 ^ 63 ≤ n ∧ n ≤ 2 ^ 63 - 1 := by
  rw [fits, Bool.and_eq_true, decide_eq_true_iff, decide_eq_true_iff, least, greatest]
  omega

theorem Word.fits_wrap (n : Int) : fits (wrap n) = true := by
  rw [fits_iff, wrap, span, least]
  omega

theorem Word.wrap_of_fits {n : Int} (h : fits n = true) : wrap n = n := by
  obtain ⟨hlow, hhigh⟩ := fits_iff.1 h
  rw [wrap, span, least]
  omega

/-- Arithmetic on integers gives integers of 64 bits, whatever it starts from. -/
theorem Arithmetic.onInts_fits {op : Arithmetic} {a b n : Int} (h : op.onInts a b = .ok n) : Word.fits n = true := by
  cases op with
  | add => cases h; exact Word.fits_wrap _
  | sub => cases h; exact Word.fits_wrap _
  | mul => cases h; exact Word.fits_wrap _
  | div =>
    rw [onInts] at h
    split at h
    · cases h
    · cases h; exact Word.fits_wrap _
  | mod =>
    rw [onInts] at h
    split at h
    · cases h
    · cases h; exact Word.fits_wrap _

namespace Operator

variable {op : Operator} {n : Int}

theorem onInts_int {a b : Int} (h : op.onInts a b = .ok (.int n)) : Word.fits n = true := by
  cases op with
  | comparison c => cases h
  | arithmetic o =>
    cases ho : o.onInts a b with
    | error e => simp [onInts, ho, Except.map] at h
    | ok k =>
      obtain rfl : k = n := by simpa [onInts, ho, Except.map] using h
      exact Arithmetic.onInts_fits ho

theorem onFloats?_int {a b : Float} : op.onFloats? a b ≠ some (.int n) := by
  cases op with
  | arithmetic o => simp [onFloats?]
  | comparison c => simp [onFloats?]

theorem onTexts?_int {a b : Text} : op.onTexts? a b ≠ some (.int n) := by
  cases op with
  | arithmetic o => simp [onTexts?]
  | comparison c => simp [onTexts?]

/-- The integers that operators give have 64 bits. -/
theorem apply_int {a b : Value} (h : op.apply a b = .ok (.int n)) : Word.fits n = true := by
  unfold apply at h
  split at h
  · exact onInts_int h
  · split at h
    · rename_i v hv
      cases h
      unfold onMixed? at hv
      split at hv
      · exact absurd hv onFloats?_int
      · exact absurd hv onFloats?_int
      · exact absurd hv onFloats?_int
      · exact absurd hv onTexts?_int
      · cases hv
    · cases h

end Operator

/-! ## Functions -/

/-- Code that ends as the code of a block does, whatever it calls and wherever it runs: with a signal or
with a pair. -/
def Code.EndsInPair (c : Code) : Prop :=
  ∀ limits call scope m v, (Eval.exec (Eval.evaluate limits call scope c) m).1 = .ok v →
    v.isFlow = true ∨ ∃ first last, v = .tuple [first, last]

theorem Eval.evaluateBlock_ends {limits : Limits} {call : Caller} {scope : ScopeId} :
    ∀ (cs : List Code) {last v : Value} {m : Machine},
      (exec (evaluateBlock limits call scope last cs) m).1 = .ok v →
        v.isFlow = true ∨ ∃ first last, v = .tuple [first, last]
  | [], last, v, m, h => by
    rw [evaluateBlock] at h
    cases h
    exact .inr ⟨_, _, rfl⟩
  | c :: cs, last, v, m, h => by
    rw [evaluateBlock, exec_andThen] at h
    split at h
    · rename_i w m' _
      split at h
      · cases h
        exact .inl ‹_›
      · exact evaluateBlock_ends cs h
    · cases h

/-- The code of a block ends with a signal or a pair. -/
theorem Code.Of.endsInPair {n : Node} {c : Code} (h : Of n c) (hk : n.kind = .lbrace) : c.EndsInPair := by
  obtain ⟨limits, top, depth, hc⟩ := h
  obtain ⟨statements, rfl⟩ : ∃ statements, c = .block statements := by
    cases depth with
    | zero => cases hc
    | succ depth =>
      simp only [compileAt, hk] at hc
      cases hs : n.children.mapM (compileAt limits top depth) with
      | error f => rw [hs] at hc; cases hc
      | ok statements => rw [hs] at hc; cases hc; exact ⟨statements, rfl⟩
  intro limits call scope m v hv
  rw [Eval.evaluate] at hv
  exact Eval.evaluateBlock_ends statements hv

/-- What holds of every function that a run makes. -/
structure Function.Sound (f : Function) : Prop where
  distinct : f.params.Nodup
  block : f.body.kind = .lbrace
  code : Code.Of f.body f.code
  ends : f.code.EndsInPair
  checked : f.code.Checked

/-! ## Values -/

namespace Value

mutual

/-- What holds of every value that a run makes, at every depth. -/
def Sound : Value → Prop
  | int n => -2 ^ 63 ≤ n ∧ n ≤ 2 ^ 63 - 1
  | tuple items => items.length ≠ 1 ∧ SoundAll items
  | fn f => f.Sound
  | flow _ payload => Sound payload
  | _ => True

/-- What holds of all of some values. -/
def SoundAll : List Value → Prop
  | [] => True
  | v :: vs => Sound v ∧ SoundAll vs

end

theorem soundAll_iff {vs : List Value} : SoundAll vs ↔ ∀ v ∈ vs, v.Sound := by
  induction vs with
  | nil => simp [SoundAll]
  | cons v vs ih => simp [SoundAll, ih]

theorem sound_tuple {vs : List Value} : (tuple vs).Sound ↔ vs.length ≠ 1 ∧ ∀ v ∈ vs, v.Sound := by
  rw [Sound, soundAll_iff]

theorem sound_of_scalar {v : Value} (h : v.isScalar = true) (hint : ∀ n, v = int n → Word.fits n = true) : v.Sound := by
  cases v with
  | int n => exact Word.fits_iff.1 (hint n rfl)
  | nil => trivial
  | bool b => trivial
  | float x => trivial
  | str t => trivial
  | tuple items => cases h
  | fn f => cases h
  | flow kind payload => cases h

end Value

/-! ## Running code -/

namespace Code.Checked

theorem part {c c' : Code} (h : c.Checked) (hc : c' ∈ c.parts) : c'.Checked := by
  cases h with
  | literal => cases hc
  | lookup => cases hc
  | assign _ h => rwa [List.mem_singleton.1 hc]
  | binary _ _ hl hr => rcases List.mem_pair.1 hc with rfl | rfl <;> assumption
  | and hl hr => rcases List.mem_pair.1 hc with rfl | rfl <;> assumption
  | or hl hr => rcases List.mem_pair.1 hc with rfl | rfl <;> assumption
  | not h => rwa [List.mem_singleton.1 hc]
  | negate _ h => rwa [List.mem_singleton.1 hc]
  | block h => exact h c' hc
  | tuple _ h => exact h c' hc
  | function => cases hc
  | apply _ hf ha =>
    rcases List.mem_cons.1 hc with rfl | hc
    · exact hf
    · exact ha c' hc
  | ret h => rwa [List.mem_singleton.1 hc]
  | jump => cases hc

theorem literal_sound {l : Literal} (h : (Code.literal l).Checked) : l.value.Sound := by
  cases h with
  | literal h =>
    refine Value.sound_of_scalar (by cases l <;> rfl) fun n hn => ?_
    cases l <;> cases hn
    exact h

theorem function_sound {params : List Text} {body : Node} {code : Code} (h : (Code.function params body code).Checked)
    (scope : ScopeId) : (⟨params, body, code, scope⟩ : Function).Sound := by
  cases h with
  | function hparams hbody hcode h => exact ⟨hparams, hbody, hcode, hcode.endsInPair hbody, h⟩

theorem tuple_length {items : List Code} (h : (Code.tuple items).Checked) : items.length ≠ 1 := by
  cases h with
  | tuple hlength => exact hlength

end Code.Checked

/-- Checked code may run, on stores that bind sound values. -/
def values : Discipline where
  Sound m := m.store.Binds Value.Sound
  Fits _ v := v.Sound
  Home _ _ := True
  Allows := Code.Checked
  Leads _ _ _ := True
  leads_refl _ _ := trivial
  leads_trans _ _ := trivial
  fits_leads _ hv := hv
  home_leads _ _ := trivial
  part h hc := h.part hc
  nil _ := trivial
  bool _ _ := trivial
  literal _ _ h := h.literal_sound
  operator h _ _ := Value.sound_of_scalar (Operator.apply_scalar h) fun _ hn => Operator.apply_int (hn ▸ h)
  negateInt _ := Word.fits_iff.1 (Word.fits_wrap _)
  negateFloat _ := trivial
  tuple h hlength hvs := Value.sound_tuple.2 ⟨hlength ▸ h.tuple_length, hvs⟩
  pair ha hb := Value.sound_tuple.2 ⟨by simp, by simpa using ⟨ha, hb⟩⟩
  item h hv := (Value.sound_tuple.1 h).2 _ hv
  payload h := h
  function h _ := h.function_sound _
  lookup := fun {_ scope} name hm _ => hm.lookup trivial scope name
  bind := fun {_ scope name _ _} _ hm _ hv => ⟨hm.bind scope name hv, trivial⟩
  body hf := hf.checked
  enter := fun {_ f _} hm _ hargs _ => ⟨hm.enter f.scope f.params hargs, trivial⟩
  leave _ := trivial
  escape _ _ hm _ := ⟨hm, trivial⟩

theorem values_gives {m : Machine} {v : Value} (h : values.Gives m v) : v.Sound := by
  rcases h with h | ⟨kind, payload, rfl, h⟩
  · exact h
  · exact h

/-- All that is bound anywhere is sound, and so are the function and the arguments if the task is a call. -/
structure Moment.Sound (t : Moment) : Prop where
  bound : t.machine.store.Binds Value.Sound
  called : ∀ depth f args pos, t.task = .call depth f args pos → f.Sound ∧ ∀ v ∈ args, v.Sound

theorem Moment.sound_of_admits {t : Moment} (h : values.Admits t) : t.Sound := by
  refine ⟨h.sound, ?_⟩
  rintro depth f args pos he
  obtain ⟨task, m⟩ := t
  cases he
  exact ⟨h.2.1, h.2.2⟩

/-- The programs of sources are checked code. -/
theorem Program.FromSource.checked {limits : Limits} {root : Node} {p : Program} (h : p.FromSource limits root) :
    p.code.Checked := by
  obtain ⟨⟨source, text, hroot⟩, hp⟩ := h
  exact Code.compile_checked (parse_wellFormed hroot) (Program.compile_eq_ok hp).2

/-- Runs make sound values only. After any sources that were run in one scope, which was empty at first, and
at every moment of the run of the next one, all that is bound anywhere is sound, as are the function and the
arguments of every call; and whatever is done leaves it so and gives a sound value, or a signal around one.
An integer that is sound has a finite double. -/
theorem runs_make_sound_values (limits : Limits) (sources : List (Text × Text)) :
    (runAll limits Store.root .initial sources).store.Binds Value.Sound ∧
    (∀ source text root p, (parse limits source text).result = .ok root → Program.compile limits root = .ok p →
      ∀ t, Moment.During limits (p.start limits Store.root (runAll limits Store.root .initial sources)) t →
        t.Sound ∧ (t.outcome limits).2.store.Binds Value.Sound ∧ ∀ v, (t.outcome limits).1 = .ok v → v.Sound) ∧
    ∀ n : Int, (Value.int n).Sound → (Decimal.floatOfInt n).isFinite = true := by
  obtain ⟨hm, -⟩ : values.Sound (runAll limits Store.root .initial sources) ∧ _ :=
    Discipline.runAll_sound (fun _ _ h => h.checked) (Store.binds_initial _) trivial sources
  refine ⟨hm, ?_, ?_⟩
  · intro source text root p hroot hp t ht
    have hchecked := Program.FromSource.checked ⟨⟨source, text, hroot⟩, hp⟩
    have hstart : values.Admits (p.start limits Store.root (runAll limits Store.root .initial sources)) :=
      ⟨hm, trivial, hchecked⟩
    have hadmits := hstart.during ht
    obtain ⟨hafter, hgives⟩ := hadmits.outcome limits
    exact ⟨Moment.sound_of_admits hadmits, hafter, fun v hv => values_gives (hgives v hv)⟩
  · rintro n ⟨hlow, hhigh⟩
    exact Decimal.floatOfInt_finite (by omega)

/-- The least integer is bound by one source, and divided by minus one in the next. -/
theorem runs_make_sound_values_wrapped :
    let m := runAll .standard Store.root .initial [("", "x = -9223372036854775807 - 1")]
    m.store.Binds Value.Sound ∧
    ∃ root p, (parse .standard "" "y = x / -1").result = .ok root ∧ Program.compile .standard root = .ok p ∧
      ((p.start .standard Store.root m).outcome .standard).2.store.Binds Value.Sound := by
  intro m
  obtain ⟨hbound, hruns, -⟩ := runs_make_sound_values .standard [("", "x = -9223372036854775807 - 1")]
  have hok : ((parse .standard "" "y = x / -1").result >>= Program.compile .standard).isOk = true := by decide +kernel
  refine ⟨hbound, ?_⟩
  cases hroot : (parse .standard "" "y = x / -1").result with
  | error f =>
    rw [hroot] at hok
    cases hok
  | ok root =>
    rw [hroot] at hok
    cases hp : Program.compile .standard root with
    | error f => simp [bind, Except.bind, hp, Except.isOk, Except.toBool] at hok
    | ok p => exact ⟨root, p, rfl, hp, (hruns _ _ root p hroot hp _ .refl).2.1⟩

end Kettle
