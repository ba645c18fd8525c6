/-
Faults point at tokens. A tree that does not compile is at fault at one of its nodes. A run that stops has a
position to tell, because calls in code are made at positions and only calls from outside are not; and it is a
position in the tree, because running does not notice a move that leaves the tree where it is. The nodes of a
tree stand at tokens, all but the root, which is at the start of the source.
-/
import Kettle.Proofs.Code.Faults
import Kettle.Proofs.Eval.Invariant
import Kettle.Proofs.Eval.Relocate
import Kettle.Proofs.Tree.Provenance

namespace Kettle

/-! ## Runs that stop somewhere -/

namespace Eval

variable {α β : Type} {limits : Limits} {call : Caller} {scope : ScopeId}

/-- The computation never stops at a fault without a position. -/
def Points (x : Eval α) : Prop := ∀ m cause, (exec x m).1 ≠ .error (.fault cause none)

/-- Calls that are made at positions point at one if they stop. -/
def PointsCalls (call : Caller) : Prop := ∀ f args pos, Points (call f args (some pos))

theorem points_pure (a : α) : Points (pure a) := by rintro m cause ⟨⟩

theorem points_fail (cause : RuntimeCause) (pos : Position) : Points (fail cause (some pos) : Eval α) := by
  rintro m cause ⟨⟩

theorem Points.bind {x : Eval α} {f : α → Eval β} (hx : Points x) (hf : ∀ a, Points (f a)) : Points (x >>= f) := by
  intro m cause
  rw [exec_bind]
  have hfirst := hx m cause
  rcases hr : exec x m with ⟨r, m'⟩
  rw [hr] at hfirst
  cases r with
  | ok a => exact hf a m' cause
  | error e =>
    rintro ⟨⟩
    exact hfirst rfl

theorem Points.andThen {x : Eval Value} {f : Value → Eval Value} (hx : Points x) (hf : ∀ v, Points (f v)) :
    Points (andThen x f) := by
  refine hx.bind fun v => ?_
  split
  · exact points_pure v
  · exact hf v

theorem points_truth (limits : Limits) (v : Value) : Points (truth limits v) := by
  unfold truth
  split
  · exact points_pure _
  · rintro m cause ⟨⟩

theorem points_binary (op : Operator) (pos : Position) (a b : Value) : Points (binary op pos a b) := by
  unfold binary
  split
  · exact points_pure _
  · exact points_fail _ pos

theorem points_negate (pos : Position) (v : Value) : Points (negate pos v) := by
  unfold negate
  split
  · exact points_pure _
  · exact points_pure _
  · exact points_fail _ pos

theorem points_refuse (limits : Limits) (pos : Position) (v : Value) : Points (refuse limits pos v) := by
  unfold refuse
  split
  · exact points_fail _ pos
  · rintro m cause ⟨⟩

theorem Points.withinCall {x : Eval Value} (hx : Points x) (pos : Position) : Points (withinCall (some pos) x) := by
  intro m cause
  rw [exec_withinCall]
  split
  · rintro ⟨⟩
  · exact hx m cause

mutual

/-- Code points at a position if it stops, because the calls it makes do. -/
theorem evaluate_points (hcall : PointsCalls call) (scope : ScopeId) : ∀ c : Code, Points (evaluate limits call scope c)
  | .literal l => by
    rw [evaluate]
    exact points_pure _
  | .lookup name => by
    rw [evaluate]
    rintro m cause ⟨⟩
  | .assign name value => by
    rw [evaluate]
    refine (evaluate_points hcall scope value).andThen fun v => ?_
    rintro m cause ⟨⟩
  | .binary op pos left right => by
    rw [evaluate]
    refine (evaluate_points hcall scope left).andThen fun a => ?_
    exact (evaluate_points hcall scope right).andThen fun b => points_binary op pos a b
  | .and left right => by
    rw [evaluate]
    refine (evaluate_points hcall scope left).andThen fun a => (points_truth limits a).bind fun b => ?_
    split
    · exact evaluate_points hcall scope right
    · exact points_pure a
  | .or left right => by
    rw [evaluate]
    refine (evaluate_points hcall scope left).andThen fun a => (points_truth limits a).bind fun b => ?_
    split
    · exact points_pure a
    · exact evaluate_points hcall scope right
  | .not operand => by
    rw [evaluate]
    refine (evaluate_points hcall scope operand).andThen fun a => ?_
    exact (points_truth limits a).bind fun b => points_pure _
  | .negate pos operand => by
    rw [evaluate]
    exact (evaluate_points hcall scope operand).andThen (points_negate pos)
  | .block statements => by
    rw [evaluate]
    exact evaluateBlock_points hcall scope .nil statements
  | .tuple items => by
    rw [evaluate]
    refine (evaluateAll_points hcall scope items).bind fun r => ?_
    split
    · exact points_pure _
    · exact points_pure _
  | .function params body code => by
    rw [evaluate]
    exact points_pure _
  | .apply pos callee args => by
    rw [evaluate]
    refine (evaluate_points hcall scope callee).andThen fun v => ?_
    split
    · rename_i f
      refine (evaluateAll_points hcall scope args).bind fun r => ?_
      split
      · exact points_pure _
      · exact hcall f _ pos
    · exact points_refuse limits pos _
  | .ret operand => by
    rw [evaluate]
    exact (evaluate_points hcall scope operand).andThen fun v => points_pure _
  | .jump kind => by
    rw [evaluate]
    exact points_pure _

theorem evaluateBlock_points (hcall : PointsCalls call) (scope : ScopeId) : ∀ (last : Value) (cs : List Code),
    Points (evaluateBlock limits call scope last cs)
  | last, [] => by
    rw [evaluateBlock]
    exact points_pure _
  | last, c :: cs => by
    rw [evaluateBlock]
    exact (evaluate_points hcall scope c).andThen fun v => evaluateBlock_points hcall scope v cs

theorem evaluateAll_points (hcall : PointsCalls call) (scope : ScopeId) : ∀ cs : List Code,
    Points (evaluateAll limits call scope cs)
  | [] => by
    rw [evaluateAll]
    exact points_pure _
  | c :: cs => by
    rw [evaluateAll]
    refine (evaluate_points hcall scope c).bind fun v => ?_
    split
    · exact points_pure _
    · refine (evaluateAll_points hcall scope cs).bind fun r => ?_
      split
      · exact points_pure _
      · exact points_pure _

end

theorem points_leave (v : Value) : Points (leave v) := by
  unfold leave
  split
  · exact points_pure _
  · rintro m cause ⟨⟩
  · exact points_pure _
  · exact points_pure _

theorem call_points (limits : Limits) : ∀ depth, PointsCalls (Eval.call limits depth)
  | 0 => by
    intro f args pos
    unfold Eval.call
    split
    · exact points_fail _ pos
    · exact points_fail _ pos
  | depth + 1 => by
    intro f args pos
    unfold Eval.call
    split
    · exact points_fail _ pos
    · have henter : Points (enter f.scope (f.params.zip args)) := by rintro m cause ⟨⟩
      refine henter.bind fun scope => ?_
      exact ((evaluate_points (call_points limits depth) scope f.code).withinCall pos).bind points_leave

/-- Code that a move leaves where it is stops, on a machine that the move leaves as it is, at a position that the
move leaves where it is. -/
theorem evaluate_fault_pos {φ : Position → Position} {c : Code} {m m' : Machine} {cause : RuntimeCause}
    {pos : Option Position} (hc : c.relocate φ = c) (hm : m.relocate φ = m) (depth : Nat)
    (h : exec (evaluate limits (Eval.call limits depth) scope c) m = (.error (.fault cause pos), m')) :
    ∃ p, pos = some p ∧ φ p = p := by
  have hpoints : Points (evaluate limits (Eval.call limits depth) scope c) :=
    evaluate_points (call_points limits depth) scope c
  have hmoves : Moves φ (Value.relocate φ) (evaluate limits (Eval.call limits depth) scope c)
      (evaluate limits (Eval.call limits depth) scope (c.relocate φ)) :=
    evaluate_relocate (call_relocate φ limits depth) scope c
  have hmoved := hmoves m
  rw [hc, hm, h] at hmoved
  cases pos with
  | none =>
    have hnone := hpoints m cause
    rw [h] at hnone
    exact absurd rfl hnone
  | some p =>
    refine ⟨p, rfl, ?_⟩
    have hfault := congrArg Prod.fst hmoved
    simp only [moved, Stop.relocate, Option.map_some, Except.error.injEq, Stop.fault.injEq, Option.some.injEq] at hfault
    exact hfault.2.symm

end Eval

/-! ## Faults of programs -/

section

variable {limits : Limits} {source text : Text} {root : Node} {p : Program} {f : Fault}

/-- A move that leaves a tree where it is leaves its code where it is. -/
theorem Code.relocate_of_compile {φ : Position → Position} {code : Code} (hroot : root.relocate φ = root)
    (h : Code.compile limits root = .ok code) : code.relocate φ = code := by
  have hfollows : Follows (Code.relocate φ) (Code.compile limits root) (Code.compile limits (root.relocate φ)) :=
    Code.compileAt_relocate _ _ limits.nodes root
  have hmoved := hfollows.of_ok h
  rw [hroot, h] at hmoved
  exact (Except.ok.inj hmoved).symm

theorem Machine.relocate_initial (φ : Position → Position) : Machine.initial.relocate φ = .initial := by
  simp [Machine.relocate, Machine.initial, Store.relocate, Store.initial, Scope.relocate, Scope.empty]

/-- A program stops at a node of its tree, if it runs where no functions from elsewhere are. -/
theorem Program.invoke_fault_pos (hp : Program.compile limits root = .ok p) (scope : ScopeId)
    (h : (p.invoke limits scope .initial).1 = .error f) : ∃ cause, ∃ n ∈ root.preorder, f = .runtime cause (some n.pos) := by
  obtain ⟨rfl, hcode⟩ := Program.compile_eq_ok hp
  have hroot : p.root.relocate (.keeping (p.root.preorder.map Node.pos)) = p.root :=
    Node.relocate_keeping_iff.2 fun n hn => List.mem_map_of_mem hn
  have hcode := Code.relocate_of_compile hroot hcode
  unfold Program.invoke Program.finish at h
  split at h
  · cases h
  · rename_i cause pos m' hexec
    cases h
    obtain ⟨q, rfl, hq⟩ := Eval.evaluate_fault_pos hcode (Machine.relocate_initial _) limits.calls hexec
    obtain ⟨n, hn, rfl⟩ := List.mem_map.1 (Position.keeping_eq_self_iff.1 hq)
    exact ⟨cause, n, hn, rfl⟩
  · -- a value that is too deep to decide its truth, outside of any call
    cases h
    exact ⟨_, p.root, p.root.mem_preorder_self, rfl⟩

/-- A fault of a source that has a tree, at its compilation or in a run in a fresh root scope, is at a node of the
tree, unless an integer is too long. -/
theorem run_fault_pos (hroot : (parse limits source text).result = .ok root)
    (h : (run limits source text Store.root .initial).result = .error f) :
    (∃ cause, ∃ n ∈ root.preorder, f = .compile cause n.pos) ∨
      (∃ cause, ∃ n ∈ root.preorder, f = .runtime cause (some n.pos)) ∨ ∃ cause, f = .numeral cause := by
  cases hp : Program.compile limits root with
  | error f' =>
    rw [(run_of_compile_error hroot hp Store.root .initial).1] at h
    cases h
    rcases Code.compile_fault_pos hroot (Program.compile_eq_error hp) with hcompile | ⟨n, -, -, hlong⟩
    · exact .inl hcompile
    · exact .inr (.inr ⟨_, hlong⟩)
  | ok p =>
    rw [(run_of_compile hroot hp Store.root .initial).1] at h
    exact .inr (.inl (Program.invoke_fault_pos hp Store.root h))

end

/-- Faults point at tokens. A source that is scanned to its end has a tree, unless its brackets go too deep. The
root is at the start of the source, and every other node stands where it should among the tokens that are no
comments and has the position of one of them. So has every complaint of the parser, and so has every fault of
compiling or running the source in a fresh root scope, unless it is at the start of the source. -/
theorem faults_point_at_tokens (limits : Limits) {source text : Text} {pos : Position}
    (h : (scan source text).ending = .finished pos) :
    ((parse limits source text).result = .error (Tree.tooDeep source) ∨
      ∃ root, (parse limits source text).result = .ok root ∧ root.pos = .start source ∧
        ∀ c ∈ root.children, ∀ n ∈ c.preorder, n.Sited (scan source text).uncommented ∧
          n.pos.OfToken (scan source text).uncommented) ∧
    (∀ c ∈ (parse limits source text).complaints, c.pos.OfToken (scan source text).uncommented) ∧
    (∀ cause p, (run limits source text Store.root .initial).result = .error (.compile cause p) →
      p = .start source ∨ p.OfToken (scan source text).uncommented) ∧
    ∀ cause pos, (run limits source text Store.root .initial).result = .error (.runtime cause pos) →
      ∃ p, pos = some p ∧ (p = .start source ∨ p.OfToken (scan source text).uncommented) := by
  obtain ⟨hsited, hcomplaints⟩ := parse_sited limits h
  rcases parse_finished limits h with hdeep | ⟨root, hroot⟩
  · have hrun := (run_of_parse_error hdeep Store.root .initial).1
    refine ⟨.inl hdeep, hcomplaints, fun cause p hf => ?_, fun cause pos hf => ?_⟩
    · cases hrun.symm.trans hf
    · cases hrun.symm.trans hf
  · obtain ⟨hstart, hnodes⟩ := hsited root hroot
    have hplace : ∀ n ∈ root.preorder, n.pos = .start source ∨ n.pos.OfToken (scan source text).uncommented := by
      intro n hn
      rw [Node.preorder_eq, List.mem_cons, Node.mem_preorderAll] at hn
      rcases hn with rfl | ⟨c, hc, hn⟩
      · exact .inl hstart
      · exact .inr (hnodes c hc n hn).2
    refine ⟨.inr ⟨root, hroot, hstart, hnodes⟩, hcomplaints, fun cause p hf => ?_, fun cause pos hf => ?_⟩
    · rcases run_fault_pos hroot hf with ⟨_, n, hn, ⟨⟩⟩ | ⟨_, n, hn, ⟨⟩⟩ | ⟨_, ⟨⟩⟩
      exact hplace n hn
    · rcases run_fault_pos hroot hf with ⟨_, n, hn, ⟨⟩⟩ | ⟨_, n, hn, ⟨⟩⟩ | ⟨_, ⟨⟩⟩
      exact ⟨n.pos, rfl, hplace n hn⟩

/-- A compound assignment that calls what is no function, and behind it a bracket that closes nothing: the complaint is
about the bracket, the run stops at the callee, and both are tokens, as is every node of the tree below its root. -/
theorem faults_point_at_tokens_compound :
    (scan "k" "a += f(1, 2)\n)").ending = .finished ⟨2, 2, "k"⟩ ∧
    (∃ root, (parse .standard "k" "a += f(1, 2)\n)").result = .ok root ∧
      (Node.preorderAll root.children).map (fun n => n.pos.column) = [3, 1, 3, 1, 6, 6, 7, 9, 8, 11] ∧
      ∀ c ∈ root.children, ∀ n ∈ c.preorder, n.Sited (scan "k" "a += f(1, 2)\n)").uncommented ∧
        n.pos.OfToken (scan "k" "a += f(1, 2)\n)").uncommented) ∧
    (parse .standard "k" "a += f(1, 2)\n)").complaints = [⟨.misplaced ")", ⟨2, 1, "k"⟩⟩] ∧
    Position.OfToken (scan "k" "a += f(1, 2)\n)").uncommented ⟨2, 1, "k"⟩ ∧
    (run .standard "k" "a += f(1, 2)\n)" Store.root .initial).result =
      .error (.runtime (.notAFunction "nil" "nil") (some ⟨1, 6, "k"⟩)) ∧
    Position.OfToken (scan "k" "a += f(1, 2)\n)").uncommented ⟨1, 6, "k"⟩ := by
  let place (column : Nat) : Position := ⟨1, column, "k"⟩
  let leaf (kind : Kind) (text : Text) (column : Nat) : Node := ⟨kind, text, [], true, place column⟩
  let list : Node := ⟨.comma, ",", [leaf .number "1" 8, leaf .number "2" 11], true, place 9⟩
  let call : Node := ⟨.apply, "call", [leaf .ident "f" 6, ⟨.lpar, "(", [list], true, place 7⟩], true, place 6⟩
  let sum : Node := ⟨.plus, "+", [leaf .ident "a" 1, call], true, place 3⟩
  let tree : Node := (Tree.root "k").into .lbrace "\x7b" [⟨.assign, "=", [leaf .ident "a" 1, sum], true, place 3⟩]
  have hscan : (scan "k" "a += f(1, 2)\n)").ending = .finished ⟨2, 2, "k"⟩ := by decide +kernel
  have hparse : (parse .standard "k" "a += f(1, 2)\n)").result = .ok tree := by decide +kernel
  have hstray : (parse .standard "k" "a += f(1, 2)\n)").complaints = [⟨.misplaced ")", ⟨2, 1, "k"⟩⟩] := by decide +kernel
  have hrun : (run .standard "k" "a += f(1, 2)\n)" Store.root .initial).result =
      .error (.runtime (.notAFunction "nil" "nil") (some ⟨1, 6, "k"⟩)) := by
    rw [(run_of_compile hparse rfl Store.root .initial).1]
    with_unfolding_all rfl
  obtain ⟨htree, hcomplaints, -, hruntime⟩ := faults_point_at_tokens .standard hscan
  refine ⟨hscan, ?_, hstray, hcomplaints ⟨.misplaced ")", ⟨2, 1, "k"⟩⟩ (by rw [hstray]; simp), hrun, ?_⟩
  · rcases htree with hdeep | ⟨root, hroot, -, hnodes⟩
    · rw [hparse] at hdeep
      cases hdeep
    · obtain rfl : tree = root := by
        rw [hparse] at hroot
        exact Except.ok.inj hroot
      exact ⟨tree, hparse, rfl, hnodes⟩
  · obtain ⟨p, hp, hplace⟩ := hruntime _ _ hrun
    cases hp
    exact hplace.resolve_left (by decide)

end Kettle
