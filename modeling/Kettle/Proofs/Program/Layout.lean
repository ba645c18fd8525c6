/-
Layout does not change meaning. Two sources whose tokens say the same to the grammar, so that they differ in
blanks, in comments, in line breaks that are no separators and in how separators are spelled, have the same
complaints, the same trees and the same runs. Only positions differ.
-/
import Kettle.Proofs.Program.Join
import Kettle.Proofs.Tree.Layout

namespace Kettle

/-- Two computations that a third one follows agree. -/
theorem Follows.agree {α α' β : Type} {g : α → β} {g' : α' → β} {x : Except Fault α} {x' : Except Fault α'}
    {y : Except Fault β} (h : Follows g x y) (h' : Follows g' x' y) : Agree (fun a a' => g a = g' a') x x' := by
  rcases Agree.cases h with ⟨a, b, rfl, rfl, hb⟩ | ⟨f, e, rfl, rfl, he⟩
  · rcases Agree.cases h' with ⟨a', b', rfl, hy, hb'⟩ | ⟨f', e', rfl, hy, -⟩
    · cases hy
      exact hb.trans hb'.symm
    · cases hy
  · rcases Agree.cases h' with ⟨a', b', rfl, hy, -⟩ | ⟨f', e', rfl, hy, he'⟩
    · cases hy
    · cases hy
      exact he.trans he'.symm

namespace Program

variable (limits : Limits)

/-- Trees that are the same but for positions compile to code that is the same but for positions. -/
theorem compile_same {root root' : Node} (h : root.same root' = true) :
    Agree (fun p p' => p.code.relocate .nowhere = p'.code.relocate .nowhere) (compile limits root)
      (compile limits root') := by
  have hcode : ∀ n : Node, Follows (Code.relocate .nowhere) (Code.compile limits n)
      (Code.compile limits (n.relocate .nowhere)) := fun n => Code.compileAt_relocate _ _ limits.nodes n
  have hroot' := hcode root'
  rw [← (Node.same_iff root root').1 h] at hroot'
  unfold compile
  rcases ((hcode root).agree hroot').cases with ⟨c, c', hc, hc', h⟩ | ⟨f, f', hf, hf', h⟩
  · rw [hc, hc']
    exact h
  · rw [hf, hf']
    exact h

/-- Code that is the same but for positions does the same on machines that are, but for positions. -/
theorem invoke_alike {p p' : Program} (h : p.code.relocate .nowhere = p'.code.relocate .nowhere) (scope : ScopeId)
    {m m' : Machine} (hm : m.Alike m') :
    Run.SameResult (p.invoke limits scope m).1 (p'.invoke limits scope m').1 ∧
      (p.invoke limits scope m).2.Alike (p'.invoke limits scope m').2 := by
  have hcall := Eval.call_relocate .nowhere limits limits.calls
  refine finish_alike p.root.pos p'.root.pos ?_
  rw [← Eval.evaluate_relocate hcall scope p.code m, ← Eval.evaluate_relocate hcall scope p'.code m', h,
    show m.relocate .nowhere = m'.relocate .nowhere from hm]

end Program

theorem Run.SameResult.agree {r r' : Except Fault Value} (h : Run.SameResult r r') : Agree Value.Alike r r' := by
  unfold Run.SameResult at h
  split at h
  · exact h
  · subst h
    rfl
  · cases h

/-- Sources that are parsed alike run alike. -/
theorem run_of_agree {limits : Limits} {source source' text text' : Text}
    (h : Agree (fun t t' => t.same t' = true) (parse limits source text).result (parse limits source' text').result)
    (scope : ScopeId) {m m' : Machine} (hm : m.Alike m') :
    Agree Value.Alike (run limits source text scope m).result (run limits source' text' scope m').result ∧
      (run limits source text scope m).machine.Alike (run limits source' text' scope m').machine := by
  rcases h.cases with ⟨root, root', hroot, hroot', hsame⟩ | ⟨f, f', hf, hf', halike⟩
  · rcases (Program.compile_same limits hsame).cases with ⟨p, p', hp, hp', hcode⟩ | ⟨f, f', hf, hf', halike⟩
    · obtain ⟨hresult, hmachine⟩ := run_of_compile hroot hp scope m
      obtain ⟨hresult', hmachine'⟩ := run_of_compile hroot' hp' scope m'
      obtain ⟨hvalues, hmachines⟩ := Program.invoke_alike limits hcode scope hm
      rw [hresult, hmachine, hresult', hmachine']
      exact ⟨hvalues.agree, hmachines⟩
    · obtain ⟨hresult, hmachine⟩ := run_of_compile_error hroot hf scope m
      obtain ⟨hresult', hmachine'⟩ := run_of_compile_error hroot' hf' scope m'
      rw [hresult, hmachine, hresult', hmachine']
      exact ⟨halike, hm⟩
  · obtain ⟨hresult, hmachine⟩ := run_of_parse_error hf scope m
    obtain ⟨hresult', hmachine'⟩ := run_of_parse_error hf' scope m'
    rw [hresult, hmachine, hresult', hmachine']
    exact ⟨halike, hm⟩

/-- Layout does not change meaning: sources that are scanned to their ends and whose tokens, comments apart, have
the same kinds and, separators apart, the same texts are parsed to the same tree but for positions, with the same
complaints in the same order, and run to the same values and bindings but for positions in functions, or to faults
of the same class with the same wording. -/
theorem layout_keeps_meaning (limits : Limits) {source source' text text' : Text} {pos pos' : Position}
    (h : (scan source text).ending = .finished pos) (h' : (scan source' text').ending = .finished pos')
    (hwords : (scan source text).words = (scan source' text').words) (scope : ScopeId) {m m' : Machine}
    (hm : m.Alike m') :
    (parse limits source text).complaints.map Complaint.cause =
        (parse limits source' text').complaints.map Complaint.cause ∧
      Agree (fun t t' => t.same t' = true) (parse limits source text).result (parse limits source' text').result ∧
      Agree Value.Alike (run limits source text scope m).result (run limits source' text' scope m').result ∧
      (run limits source text scope m).machine.Alike (run limits source' text' scope m').machine := by
  obtain ⟨hcomplaints, htrees⟩ := parse_layout limits h h' hwords
  exact ⟨hcomplaints, htrees, run_of_agree htrees scope hm⟩

/-- A function and its call, on several lines with a comment, and on one line. -/
theorem layout_keeps_meaning_lines :
    (scan [] "f = fn (a) \x7b a +\n 1 \x7d # one\n f( 2 )").words = (scan "dense" "f=fn(a)\x7ba+1\x7d;f(2)").words ∧
      Agree Value.Alike (run .standard [] "f = fn (a) \x7b a +\n 1 \x7d # one\n f( 2 )" 0 .initial).result
        (run .standard "dense" "f=fn(a)\x7ba+1\x7d;f(2)" 0 .initial).result ∧
      (run .standard [] "f = fn (a) \x7b a +\n 1 \x7d # one\n f( 2 )" 0 .initial).machine.Alike
        (run .standard "dense" "f=fn(a)\x7ba+1\x7d;f(2)" 0 .initial).machine := by
  have h : (scan [] "f = fn (a) \x7b a +\n 1 \x7d # one\n f( 2 )").ending = .finished ⟨3, 8, []⟩ := by decide +kernel
  have h' : (scan "dense" "f=fn(a)\x7ba+1\x7d;f(2)").ending = .finished ⟨1, 18, "dense"⟩ := by decide +kernel
  have hwords : (scan [] "f = fn (a) \x7b a +\n 1 \x7d # one\n f( 2 )").words =
      (scan "dense" "f=fn(a)\x7ba+1\x7d;f(2)").words := by decide +kernel
  exact ⟨hwords, (layout_keeps_meaning .standard h h' hwords 0 rfl).2.2⟩

end Kettle
