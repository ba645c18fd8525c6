/-
Rejection comes before any effect. A source that cannot be scanned, built or compiled leaves everything as it
was; and once its program has started, all that runs was compiled before, so only runtime faults can stop it.
-/
import Kettle.Proofs.Code.Faults
import Kettle.Proofs.Eval.Pieces
import Kettle.Proofs.Eval.Values

namespace Kettle

/-- Whether a fault comes up while code runs. The classes of such faults are those of `RuntimeClass`. -/
def Fault.isRuntime : Fault → Bool
  | runtime .. => true
  | _ => false

/-- A source is rejected with a fault: it has no tree, or its tree has no code. -/
inductive Rejected (limits : Limits) (source text : Text) (f : Fault) : Prop where
  | building (h : (parse limits source text).result = .error f)
  | compiling {root : Node} (hroot : (parse limits source text).result = .ok root)
      (h : Program.compile limits root = .error f)

/-- A source is accepted: it has a program. -/
structure Accepted (limits : Limits) (source text : Text) (p : Program) : Prop where
  parsed : (parse limits source text).result = .ok p.root
  compiled : Program.compile limits p.root = .ok p

section

variable {limits : Limits} {source text : Text} {f : Fault} {p : Program}

theorem rejected_iff :
    Rejected limits source text f ↔ (parse limits source text).result >>= Program.compile limits = .error f := by
  constructor
  · rintro (h | ⟨hroot, h⟩)
    · rw [h]
      rfl
    · rw [hroot]
      exact h
  · intro h
    cases hroot : (parse limits source text).result with
    | error f' =>
      rw [hroot] at h
      cases h
      exact .building hroot
    | ok root =>
      rw [hroot] at h
      exact .compiling hroot h

theorem accepted_iff :
    Accepted limits source text p ↔ (parse limits source text).result >>= Program.compile limits = .ok p := by
  constructor
  · rintro ⟨hroot, h⟩
    rw [hroot]
    exact h
  · intro h
    cases hroot : (parse limits source text).result with
    | error f' =>
      rw [hroot] at h
      cases h
    | ok root =>
      rw [hroot] at h
      obtain ⟨rfl, -⟩ := Program.compile_eq_ok h
      exact ⟨hroot, h⟩

/-- A source is rejected or accepted. -/
theorem rejected_or_accepted (limits : Limits) (source text : Text) :
    (∃ f, Rejected limits source text f) ∨ ∃ p, Accepted limits source text p := by
  cases h : (parse limits source text).result >>= Program.compile limits with
  | error f => exact .inl ⟨f, rejected_iff.2 h⟩
  | ok p => exact .inr ⟨p, accepted_iff.2 h⟩

theorem Accepted.fromSource (h : Accepted limits source text p) : Program.FromSource limits p.root p :=
  ⟨⟨source, text, h.parsed⟩, h.compiled⟩

/-- What a source is rejected with: a lexical fault, brackets or a tree that goes too deep or has no code, or an
integer that is too long. -/
theorem Rejected.cause (h : Rejected limits source text f) :
    (∃ cause pos, f = .lexical cause pos) ∨ f = Tree.tooDeep source ∨ (∃ cause pos, f = .compile cause pos) ∨
      ∃ root, (parse limits source text).result = .ok root ∧
        ∃ n ∈ root.preorder, n.Overlong limits ∧ f = .numeral (.tooLong limits.digits n.text.length) := by
  cases h with
  | building h =>
    rcases parse_error h with rfl | ⟨cause, pos, -, rfl⟩
    · exact .inr (.inl rfl)
    · exact .inl ⟨cause, pos, rfl⟩
  | compiling hroot h =>
    rcases Code.compile_fault hroot (Program.compile_eq_error h) with hcompile | hlong
    · exact .inr (.inr (.inl hcompile))
    · exact .inr (.inr (.inr ⟨_, hroot, hlong⟩))

theorem Rejected.not_runtime (h : Rejected limits source text f) : f.isRuntime = false := by
  rcases h.cause with ⟨cause, pos, rfl⟩ | rfl | ⟨cause, pos, rfl⟩ | ⟨root, -, n, -, -, rfl⟩ <;> rfl

/-- The run of a rejected source changes nothing. -/
theorem Rejected.run_eq (h : Rejected limits source text f) (scope : ScopeId) (m : Machine) :
    (run limits source text scope m).result = .error f ∧ (run limits source text scope m).machine = m := by
  cases h with
  | building h => exact run_of_parse_error h scope m
  | compiling hroot h => exact run_of_compile_error hroot h scope m

/-- The run of an accepted source ends with a value or a runtime fault. -/
theorem Accepted.isRuntime (h : Accepted limits source text p) (scope : ScopeId) (m : Machine)
    (hf : (run limits source text scope m).result = .error f) : f.isRuntime = true := by
  rw [(run_of_compile h.parsed h.compiled scope m).1, Program.invoke, Program.finish] at hf
  split at hf <;> cases hf <;> rfl

/-- All that runs in the course of an accepted source was compiled before, and makes sound values. -/
theorem Accepted.during (h : Accepted limits source text p) (earlier : List (ScopeId × Text × Text)) (scope : ScopeId)
    {t : Moment} (ht : Moment.During limits (p.start limits scope (runEach limits .initial earlier)) t) :
    t.Prepared limits ∧ t.Sound := by
  have hprepared : (pieces (Code.Prepared limits) Code.Prepared.inner).Sound (runEach limits .initial earlier) :=
    Discipline.runEach_sound (fun _ _ hp => hp.prepared) (fun _ _ => trivial) (Store.binds_initial _) earlier
  have hsound : values.Sound (runEach limits .initial earlier) :=
    Discipline.runEach_sound (fun _ _ hp => hp.checked) (fun _ _ => trivial) (Store.binds_initial _) earlier
  have hpieces : (pieces (Code.Prepared limits) Code.Prepared.inner).Admits
      (p.start limits scope (runEach limits .initial earlier)) := ⟨hprepared, trivial, h.fromSource.prepared⟩
  have hvalues : values.Admits (p.start limits scope (runEach limits .initial earlier)) :=
    ⟨hsound, trivial, h.fromSource.checked⟩
  exact ⟨Moment.prepared_of_admits (hpieces.during ht), Moment.sound_of_admits (hvalues.during ht)⟩

end

/-- Rejection happens before any effect. After any sources that were run, in whatever scopes, from an empty one: a
fault that is no runtime fault leaves the machine as it was, and it is what the source is rejected with. A source that
is not rejected is started, and then only runtime faults can stop it: at every moment of the run the code that runs,
the function that is called and every function that is bound anywhere are pieces of programs that were compiled as a
whole before they were started, and all values are sound. -/
theorem rejection_precedes_effects (limits : Limits) (earlier : List (ScopeId × Text × Text)) (scope : ScopeId)
    (source text : Text) :
    let m := runEach limits .initial earlier
    let r := run limits source text scope m
    (∀ f, r.result = .error f → f.isRuntime = false → Rejected limits source text f ∧ r.machine = m) ∧
    (∀ f, Rejected limits source text f → r.result = .error f ∧ f.isRuntime = false ∧ r.machine = m) ∧
    ((∃ f, Rejected limits source text f) ∨ ∃ p, Accepted limits source text p) ∧
    ∀ p, Accepted limits source text p →
      (∀ f, r.result = .error f → f.isRuntime = true) ∧
      ∀ t, Moment.During limits (p.start limits scope m) t → t.Prepared limits ∧ t.Sound := by
  intro m r
  have hrejected : ∀ f, Rejected limits source text f → r.result = .error f ∧ f.isRuntime = false ∧ r.machine = m :=
    fun f hf => ⟨(hf.run_eq scope m).1, hf.not_runtime, (hf.run_eq scope m).2⟩
  refine ⟨fun f hf hruntime => ?_, hrejected, rejected_or_accepted limits source text, fun p hp => ?_⟩
  · rcases rejected_or_accepted limits source text with ⟨f', hf'⟩ | ⟨p, hp⟩
    · obtain ⟨hresult, -, hmachine⟩ := hrejected f' hf'
      cases hf.symm.trans hresult
      exact ⟨hf', hmachine⟩
    · cases hruntime.symm.trans (hp.isRuntime scope m hf)
  · exact ⟨fun f hf => hp.isRuntime scope m hf, fun t ht => hp.during earlier scope ht⟩

/-- A function body has its source rejected though nobody calls it. A call of a function that an earlier source bound
is accepted, and runs only what was compiled. -/
theorem rejection_precedes_effects_uncalled :
    let m := runEach .standard .initial [(Store.root, "", "f = fn() \x7b -nil \x7d")]
    (∃ f, Rejected .standard "" "fn() \x7b nil = 2 \x7d" f ∧
      (run .standard "" "fn() \x7b nil = 2 \x7d" Store.root m).result = .error f ∧
      (run .standard "" "fn() \x7b nil = 2 \x7d" Store.root m).machine = m) ∧
    ∃ p, Accepted .standard "" "f()" p ∧
      ∀ t, Moment.During .standard (p.start .standard Store.root m) t → t.Prepared .standard ∧ t.Sound := by
  intro m
  have hrejected : ((parse .standard "" "fn() \x7b nil = 2 \x7d").result >>=
      Program.compile .standard).isOk = false := by decide +kernel
  have haccepted : ((parse .standard "" "f()").result >>= Program.compile .standard).isOk = true := by decide +kernel
  constructor
  · obtain ⟨-, h, -⟩ := rejection_precedes_effects .standard [(Store.root, "", "f = fn() \x7b -nil \x7d")] Store.root ""
      "fn() \x7b nil = 2 \x7d"
    rcases rejected_or_accepted .standard "" "fn() \x7b nil = 2 \x7d" with ⟨f, hf⟩ | ⟨p, hp⟩
    · obtain ⟨hresult, -, hmachine⟩ := h f hf
      exact ⟨f, hf, hresult, hmachine⟩
    · rw [accepted_iff.1 hp] at hrejected
      cases hrejected
  · obtain ⟨-, -, -, h⟩ := rejection_precedes_effects .standard [(Store.root, "", "f = fn() \x7b -nil \x7d")] Store.root "" "f()"
    rcases rejected_or_accepted .standard "" "f()" with ⟨f, hf⟩ | ⟨p, hp⟩
    · rw [rejected_iff.1 hf] at haccepted
      cases haccepted
    · exact ⟨p, hp, (h p hp).2⟩

end Kettle
