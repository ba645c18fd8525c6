/-
Running piece by piece. Two sources with a line of a semicolon between them run as the first one and
then the second one in the scope as the first one left it. What comes out differs in positions only.
-/
import Kettle.Proofs.Eval.Frame
import Kettle.Proofs.Eval.Relocate
import Kettle.Proofs.Tree.Joined
import Kettle.Program

namespace Kettle

/-! ## Positions left out -/

namespace Code

mutual

theorem relocate_relocate (φ ψ : Position → Position) : ∀ c : Code, (c.relocate φ).relocate ψ = c.relocate (ψ ∘ φ)
  | .literal _ => rfl
  | .lookup _ => rfl
  | .assign _ value => by simp only [relocate, relocate_relocate φ ψ value]
  | .binary _ _ left right => by
    simp only [relocate, relocate_relocate φ ψ left, relocate_relocate φ ψ right, Function.comp]
  | .and left right => by simp only [relocate, relocate_relocate φ ψ left, relocate_relocate φ ψ right]
  | .or left right => by simp only [relocate, relocate_relocate φ ψ left, relocate_relocate φ ψ right]
  | .not operand => by simp only [relocate, relocate_relocate φ ψ operand]
  | .negate _ operand => by simp only [relocate, relocate_relocate φ ψ operand, Function.comp]
  | .block statements => by simp only [relocate, relocateAll_relocateAll φ ψ statements]
  | .tuple items => by simp only [relocate, relocateAll_relocateAll φ ψ items]
  | .function _ body code => by simp only [relocate, Node.relocate_relocate, relocate_relocate φ ψ code]
  | .apply _ callee args => by
    simp only [relocate, relocate_relocate φ ψ callee, relocateAll_relocateAll φ ψ args, Function.comp]
  | .ret operand => by simp only [relocate, relocate_relocate φ ψ operand]
  | .jump _ => rfl

theorem relocateAll_relocateAll (φ ψ : Position → Position) : ∀ cs : List Code,
    relocateAll ψ (relocateAll φ cs) = relocateAll (ψ ∘ φ) cs
  | [] => rfl
  | c :: cs => by
    rw [relocateAll, relocateAll, relocateAll, relocate_relocate φ ψ c, relocateAll_relocateAll φ ψ cs]

end

end Code

/-- The values are the same but for the positions in functions. -/
def Value.Alike (v v' : Value) : Prop := v.relocate .nowhere = v'.relocate .nowhere

/-- The machines are the same but for the positions in functions. -/
def Machine.Alike (m m' : Machine) : Prop := m.relocate .nowhere = m'.relocate .nowhere

/-- The results of two runs are values that are alike, or faults of one class with one wording. -/
def Run.SameResult : Except Fault Value → Except Fault Value → Prop
  | .ok v, .ok v' => v.Alike v'
  | .error (.runtime cause _), .error (.runtime cause' _) => cause = cause'
  | _, _ => False

/-! ## Statements one after the other -/

namespace Eval

/-- Statements give a pair of true and a value, and more statements behind them go on from there; or
they give a signal or stop, and what is behind them does not run. -/
theorem evaluateBlock_append (limits : Limits) (call : Caller) (scope : ScopeId) (cs : List Code) (last : Value)
    (m : Machine) :
    (∃ v m', exec (evaluateBlock limits call scope last cs) m = (.ok (.tuple [.bool true, v]), m') ∧
      ∀ cs', exec (evaluateBlock limits call scope last (cs ++ cs')) m =
        exec (evaluateBlock limits call scope v cs') m') ∨
    ((∀ v, (exec (evaluateBlock limits call scope last cs) m).1 = .ok v → v.isFlow = true) ∧
      ∀ cs', exec (evaluateBlock limits call scope last (cs ++ cs')) m =
        exec (evaluateBlock limits call scope last cs) m) := by
  induction cs generalizing last m with
  | nil =>
    refine .inl ⟨last, m, ?_, fun cs' => rfl⟩
    rw [evaluateBlock]
    rfl
  | cons c cs ih =>
    simp only [List.cons_append, evaluateBlock, exec_andThen]
    rcases hc : exec (evaluate limits call scope c) m with ⟨r, m₁⟩
    cases r with
    | error e => exact .inr ⟨by rintro v ⟨⟩, fun _ => rfl⟩
    | ok v =>
      cases hv : v.isFlow with
      | true =>
        refine .inr ⟨?_, fun _ => ?_⟩
        · simp only [hv, if_true]
          rintro w ⟨⟩
          exact hv
        · simp only [hv, if_true]
      | false =>
        simp only [hv]
        exact ih v m₁

/-- The value before the first statement does not matter. -/
theorem evaluateBlock_cons {limits : Limits} {call : Caller} {scope : ScopeId} (last last' : Value) (c : Code)
    (cs : List Code) :
    evaluateBlock limits call scope last (c :: cs) = evaluateBlock limits call scope last' (c :: cs) := by
  rw [evaluateBlock, evaluateBlock]

end Eval

/-! ## Programs -/

namespace Program

variable {limits : Limits}

/-- A block compiles to the block of its statements. -/
theorem compile_block {n : Node} {code : Code} (hk : n.kind = .lbrace) (h : Code.compile limits n = .ok code) :
    ∃ depth cs, limits.nodes = depth + 1 ∧ n.children.mapM (Code.compileAt limits n.pos depth) = .ok cs ∧
      code = .block cs := by
  unfold Code.compile at h
  cases hd : limits.nodes with
  | zero => rw [hd] at h; cases h
  | succ depth =>
    rw [hd, Code.compileAt] at h
    simp only [hk] at h
    cases hcs : n.children.mapM (Code.compileAt limits n.pos depth) with
    | error e => rw [hcs] at h; cases h
    | ok cs =>
      rw [hcs] at h
      cases h
      exact ⟨depth, cs, rfl, hcs, rfl⟩

theorem compile_of_block {n : Node} {depth : Nat} {cs : List Code} (hk : n.kind = .lbrace)
    (hd : limits.nodes = depth + 1) (h : n.children.mapM (Code.compileAt limits n.pos depth) = .ok cs) :
    compile limits n = .ok ⟨n, .block cs⟩ := by
  unfold compile Code.compile
  rw [hd, Code.compileAt]
  simp only [hk, h]
  rfl

theorem finish_congr {x x' : Eval Value} {m m' : Machine} (h : Eval.exec x m = Eval.exec x' m') (pos : Position) :
    finish x pos m = finish x' pos m' := by
  unfold finish
  rw [h]

theorem finish_of_ok {x : Eval Value} {m m' : Machine} {v : Value} (h : Eval.exec x m = (.ok v, m')) (pos : Position) :
    finish x pos m = (.ok v, m') := by
  unfold finish
  rw [h]

theorem invoke_block {p : Program} {cs : List Code} (h : p.code = .block cs) (scope : ScopeId) (m : Machine) :
    p.invoke limits scope m =
      finish (Eval.evaluateBlock limits (Eval.call limits limits.calls) scope .nil cs) p.root.pos m := by
  unfold invoke
  rw [h, Eval.evaluate]

/-- Outcomes that differ in positions only end in results that differ in positions only. -/
theorem finish_alike {x x' : Eval Value} {m m' : Machine} (pos pos' : Position)
    (h : Eval.moved .nowhere (Value.relocate .nowhere) (Eval.exec x m) =
      Eval.moved .nowhere (Value.relocate .nowhere) (Eval.exec x' m')) :
    Run.SameResult (finish x pos m).1 (finish x' pos' m').1 ∧ (finish x pos m).2.Alike (finish x' pos' m').2 := by
  unfold finish
  generalize Eval.exec x m = o at h ⊢
  generalize Eval.exec x' m' = o' at h ⊢
  obtain ⟨r, m₁⟩ := o
  obtain ⟨r', m₁'⟩ := o'
  cases r with
  | ok v =>
    cases r' with
    | ok v' =>
      obtain ⟨hv, hm⟩ := Prod.mk.inj h
      exact ⟨Except.ok.inj hv, hm⟩
    | error e' => cases (Prod.mk.inj h).1
  | error e =>
    cases r' with
    | ok v' => cases (Prod.mk.inj h).1
    | error e' =>
      obtain ⟨he, hm⟩ := Prod.mk.inj h
      have he := Except.error.inj he
      cases e with
      | fault cause pos =>
        cases e' with
        | fault cause' pos' => exact ⟨(Stop.fault.inj he).1, hm⟩
        | overflow => cases he
      | overflow =>
        cases e' with
        | fault cause' pos' => cases he
        | overflow => exact ⟨rfl, hm⟩

end Program

theorem parse_root {limits : Limits} {source text : Text} {root : Node}
    (h : (parse limits source text).result = .ok root) : root.kind = .lbrace ∧ root.pos = .start source := by
  rw [Tree.close_eq_ok h]
  exact ⟨rfl, rfl⟩

/-! ## Joined sources -/

theorem mapM_eq_nil_iff {ε α β : Type} {f : α → Except ε β} {as : List α} {bs : List β} (h : as.mapM f = .ok bs) :
    bs = [] ↔ as = [] := by
  cases as with
  | nil => cases h; simp
  | cons a as =>
    rw [List.mapM_cons] at h
    cases ha : f a with
    | error e => rw [ha] at h; cases h
    | ok b =>
      rw [ha] at h
      cases has : as.mapM f with
      | error e => rw [has] at h; cases h
      | ok bs' => rw [has] at h; cases h; simp

/-- The code of joined sources: the statements of the first one, and those of the second one with other
positions. -/
theorem compile_join {limits : Limits} {source s₁ s₂ : Text} {root₁ root₂ : Node} {p₁ p₂ : Program}
    (hroot₁ : (parse limits source s₁).result = .ok root₁) (hp₁ : Program.compile limits root₁ = .ok p₁)
    (hopen : ∀ c ∈ (parse limits source s₁).complaints, c.isUnclosed = false)
    (hroot₂ : (parse limits source s₂).result = .ok root₂) (hp₂ : Program.compile limits root₂ = .ok p₂) :
    ∃ φ root cs₁ cs₂, p₁.code = .block cs₁ ∧ p₂.code = .block cs₂ ∧ (cs₂ = [] ↔ root₂.children = []) ∧
      root.pos = root₁.pos ∧ (parse limits source (s₁ ++ "\n;\n" ++ s₂)).result = .ok root ∧
      Program.compile limits root = .ok ⟨root, .block (cs₁ ++ Code.relocateAll φ cs₂)⟩ := by
  obtain ⟨k, -, hroot⟩ := parse_join hroot₁ hopen hroot₂
  obtain ⟨hkind₁, hpos₁⟩ := parse_root hroot₁
  obtain ⟨hkind₂, hpos₂⟩ := parse_root hroot₂
  obtain ⟨-, hcode₁⟩ := Program.compile_eq_ok hp₁
  obtain ⟨-, hcode₂⟩ := Program.compile_eq_ok hp₂
  obtain ⟨depth, cs₁, hdepth, hcs₁, hblock₁⟩ := Program.compile_block hkind₁ hcode₁
  obtain ⟨depth', cs₂, hdepth', hcs₂, hblock₂⟩ := Program.compile_block hkind₂ hcode₂
  obtain rfl : depth' = depth := by omega
  rw [← List.append_assoc] at hroot
  -- the statements of the second source compile to the same code, one line or more further down
  have hmoved : (root₂.children.map (Node.relocate (Position.down k))).mapM
      (Code.compileAt limits root₁.pos depth') = .ok (cs₂.map (Code.relocate (Position.down k))) :=
    (Follows.mapM (Code.compileAt_relocate _ _ depth') root₂.children).of_ok hcs₂
  refine ⟨Position.down k, root₁.into root₁.kind root₁.text (root₁.children ++
    root₂.children.map (Node.relocate (Position.down k))), cs₁, cs₂, hblock₁, hblock₂, ?_, rfl, hroot, ?_⟩
  · exact mapM_eq_nil_iff hcs₂
  · refine Program.compile_of_block hkind₁ hdepth ?_
    have hchildren : (root₁.children ++ root₂.children.map (Node.relocate (Position.down k))).mapM
        (Code.compileAt limits root₁.pos depth') = .ok (cs₁ ++ cs₂.map (Code.relocate (Position.down k))) := by
      rw [List.mapM_append, hcs₁, hmoved]
      rfl
    rw [Code.relocateAll_eq]
    exact hchildren

/-- What is run of joined sources, where the first one comes to its end, is what the second one runs, with
other positions. -/
theorem evaluateBlock_alike (limits : Limits) (scope : ScopeId) (φ : Position → Position) (last : Value)
    (cs : List Code) (hcs : cs ≠ []) (m : Machine) (depth : Nat) :
    Eval.moved .nowhere (Value.relocate .nowhere)
        (Eval.exec (Eval.evaluateBlock limits (Eval.call limits depth) scope last (Code.relocateAll φ cs)) m) =
      Eval.moved .nowhere (Value.relocate .nowhere)
        (Eval.exec (Eval.evaluateBlock limits (Eval.call limits depth) scope .nil cs) m) := by
  have hlast : Eval.evaluateBlock limits (Eval.call limits depth) scope last (Code.relocateAll φ cs) =
      Eval.evaluateBlock limits (Eval.call limits depth) scope .nil (Code.relocateAll φ cs) := by
    cases cs with
    | nil => exact absurd rfl hcs
    | cons c cs => exact Eval.evaluateBlock_cons _ _ _ _
  -- with all positions left out, both sides run the same code on the same machine
  have hcall := Eval.call_relocate .nowhere limits depth
  rw [hlast, ← Eval.evaluateBlock_relocate hcall scope .nil (Code.relocateAll φ cs) m,
    ← Eval.evaluateBlock_relocate hcall scope .nil cs m, Code.relocateAll_relocateAll]
  rfl

/-- Running two sources with a line of a semicolon between them is running the first one and then the second
one, if the first one leaves no bracket open. Where the first one ends with a signal or a fault, that is
all; where the second one has no statements, the value is that of the first one. -/
theorem run_join (limits : Limits) (source s₁ s₂ : Text) (scope : ScopeId) (m : Machine) {root₁ root₂ : Node}
    {p₁ p₂ : Program} (hroot₁ : (parse limits source s₁).result = .ok root₁)
    (hp₁ : Program.compile limits root₁ = .ok p₁)
    (hopen : ∀ c ∈ (parse limits source s₁).complaints, c.isUnclosed = false)
    (hroot₂ : (parse limits source s₂).result = .ok root₂) (hp₂ : Program.compile limits root₂ = .ok p₂) :
    let first := run limits source s₁ scope m
    let second := run limits source s₂ scope first.machine
    let joined := run limits source (s₁ ++ "\n;\n" ++ s₂) scope m
    (∀ v, first.result = .ok (.tuple [.bool true, v]) →
      (root₂.children ≠ [] → Run.SameResult joined.result second.result ∧ joined.machine.Alike second.machine) ∧
      (root₂.children = [] → joined.result = .ok (.tuple [.bool true, v]) ∧ joined.machine = first.machine)) ∧
    (((∃ fault, first.result = .error fault) ∨ ∃ signal, first.result = .ok signal ∧ signal.isFlow = true) →
      joined.result = first.result ∧ joined.machine = first.machine) := by
  obtain ⟨φ, root, cs₁, cs₂, hcode₁, hcode₂, hnil, hpos, hroot, hp⟩ := compile_join hroot₁ hp₁ hopen hroot₂ hp₂
  obtain ⟨hresult₁, hmachine₁⟩ := run_of_compile hroot₁ hp₁ scope m
  obtain ⟨hresult, hmachine⟩ := run_of_compile hroot hp scope m
  have hposition : root.pos = p₁.root.pos := by rw [hpos, (Program.compile_eq_ok hp₁).1]
  rw [Program.invoke_block hcode₁] at hresult₁ hmachine₁
  rw [Program.invoke_block rfl] at hresult hmachine
  intro first second joined
  rcases Eval.evaluateBlock_append limits (Eval.call limits limits.calls) scope cs₁ .nil m with
    ⟨v, m', hfirst, hmore⟩ | ⟨hflow, hmore⟩
  · -- the first source comes to its end, and the second one goes on from there
    have hend := Program.finish_of_ok hfirst p₁.root.pos
    rw [hend] at hresult₁ hmachine₁
    have hjoined := Program.finish_congr (hmore (Code.relocateAll φ cs₂)) root.pos
    rw [hjoined] at hresult hmachine
    refine ⟨fun w hw => ⟨fun hne => ?_, fun hnone => ?_⟩, ?_⟩
    · obtain ⟨hresult₂, hmachine₂⟩ := run_of_compile hroot₂ hp₂ scope first.machine
      have hm : first.machine = m' := hmachine₁
      rw [Program.invoke_block hcode₂, hm] at hresult₂ hmachine₂
      have halike := Program.finish_alike root.pos p₂.root.pos
        (evaluateBlock_alike limits scope φ v cs₂ (fun h => hne (hnil.1 h)) m' limits.calls)
      rw [← hresult, ← hmachine, ← hresult₂, ← hmachine₂, ← hm] at halike
      exact halike
    · obtain rfl : cs₂ = [] := hnil.2 hnone
      obtain rfl : w = v := by
        have hpair : Value.tuple [.bool true, w] = .tuple [.bool true, v] := Except.ok.inj (hw.symm.trans hresult₁)
        simpa using hpair
      have hlast : Eval.exec (Eval.evaluateBlock limits (Eval.call limits limits.calls) scope w
          (Code.relocateAll φ [])) m' = (.ok (.tuple [.bool true, w]), m') := by
        rw [Code.relocateAll, Eval.evaluateBlock]
        rfl
      rw [Program.finish_of_ok hlast] at hresult hmachine
      exact ⟨hresult, hmachine.trans hmachine₁.symm⟩
    · rintro (⟨fault, hfault⟩ | ⟨signal, hsignal, hflow⟩)
      · cases hfault.symm.trans hresult₁
      · cases Except.ok.inj (hsignal.symm.trans hresult₁)
        cases hflow
  · -- a signal or a fault ends both
    rw [hposition, Program.finish_congr (hmore (Code.relocateAll φ cs₂)) p₁.root.pos] at hresult hmachine
    refine ⟨fun v hv => ?_, fun _ => ⟨hresult.trans hresult₁.symm, hmachine.trans hmachine₁.symm⟩⟩
    have hpair := hflow _ (Program.finish_eq_ok (hresult₁.symm.trans hv))
    cases hpair

/-- A binding and an expression that uses it. -/
theorem run_join_binding :
    let first := run .standard [] "x = 1" 0 .initial
    let second := run .standard [] "x + 2" 0 first.machine
    let joined := run .standard [] ("x = 1" ++ "\n;\n" ++ "x + 2") 0 .initial
    Run.SameResult joined.result second.result ∧ joined.machine.Alike second.machine := by
  let place (column : Nat) : Position := ⟨1, column, []⟩
  let root (n : Node) : Node := (Tree.root []).into .lbrace "\x7b" [n]
  let leaf (kind : Kind) (text : Text) (column : Nat) : Node := ⟨kind, text, [], true, place column⟩
  let binding : Node := root ⟨.assign, "=", [leaf .ident "x" 1, leaf .number "1" 5], true, place 3⟩
  let sum : Node := root ⟨.plus, "+", [leaf .ident "x" 1, leaf .number "2" 5], true, place 3⟩
  have hroot₁ : (parse .standard [] "x = 1").result = .ok binding := by decide +kernel
  have hp₁ : Program.compile .standard binding = .ok ⟨binding, .block [.assign "x" (.literal (.int 1))]⟩ := by rfl
  have hclosed : (parse .standard [] "x = 1").complaints = [] := by decide +kernel
  have hroot₂ : (parse .standard [] "x + 2").result = .ok sum := by decide +kernel
  have hp₂ : Program.compile .standard sum = .ok ⟨sum, .block
      [.binary (.arithmetic .add) (place 3) (.lookup "x") (.literal (.int 2))]⟩ := by rfl
  have hfirst : (run .standard [] "x = 1" 0 .initial).result = .ok (.tuple [.bool true, .int 1]) := by
    rw [(run_of_compile hroot₁ hp₁ 0 .initial).1]
    rfl
  have hjoin := run_join .standard [] "x = 1" "x + 2" 0 .initial hroot₁ hp₁ (by simp [hclosed]) hroot₂ hp₂
  exact (hjoin.1 (.int 1) hfirst).1 (by simp [sum, root, Node.into])
end Kettle
