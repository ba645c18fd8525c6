/-
Signals and what they come up in. A tree runs inside others: as an operand, the right side of an assignment, an item of
a list, a statement of a block, a callee or an argument, in a group or under `return`. What runs before it there may
bind names and must not end in a signal or a stop. If then the tree gives a signal, so does everything around it, up to
the body of the function it stands in, and nothing that is behind it runs.
-/
import Kettle.Proofs.Code.Subtrees
import Kettle.Proofs.Eval.Exec
import Kettle.Proofs.Eval.Task

namespace Kettle

/-! ## Running code -/

namespace Moment

variable {limits : Limits} {depth : Nat} {scope : ScopeId} {m m₁ m₂ : Machine} {signal : Value} {c c' : Code}

theorem outcome_code (c : Code) (m : Machine) : outcome limits ⟨.code depth scope c, m⟩ =
    Eval.exec (Eval.evaluate limits (Eval.call limits depth) scope c) m := rfl

/-- A signal of the part that runs first is the signal of the whole. -/
theorem signal_first (h : c.first? = some c') (hflow : signal.isFlow = true)
    (hc : outcome limits ⟨.code depth scope c', m⟩ = (.ok signal, m₂)) :
    outcome limits ⟨.code depth scope c, m⟩ = (.ok signal, m₂) := by
  rw [outcome_code] at hc ⊢
  cases c <;> cases h <;> rw [Eval.evaluate, Eval.exec_andThen, hc] <;> simp only [hflow, if_true]

/-- Statements that pass are left behind, up to one that gives a signal. -/
theorem signal_statement {before after : List Code} (h : Task.Passes limits depth scope before m m₁)
    (hflow : signal.isFlow = true) (hc : outcome limits ⟨.code depth scope c, m₁⟩ = (.ok signal, m₂)) (last : Value) :
    Eval.exec (Eval.evaluateBlock limits (Eval.call limits depth) scope last (before ++ c :: after)) m =
      (.ok signal, m₂) := by
  induction h generalizing last with
  | nil =>
    rw [outcome_code] at hc
    rw [List.nil_append, Eval.evaluateBlock, Eval.exec_andThen, hc]
    simp only [hflow, if_true]
  | cons hv hplain _ ih =>
    rw [Task.eval] at hv
    rw [List.cons_append, Eval.evaluateBlock, Eval.exec_andThen, hv]
    simp only [hplain, Bool.false_eq_true, if_false]
    exact ih hc _

/-- Items that pass are left behind, up to one that gives a signal. -/
theorem signal_item {before after : List Code} (h : Task.Passes limits depth scope before m m₁)
    (hflow : signal.isFlow = true) (hc : outcome limits ⟨.code depth scope c, m₁⟩ = (.ok signal, m₂)) :
    Eval.exec (Eval.evaluateAll limits (Eval.call limits depth) scope (before ++ c :: after)) m =
      (.ok (.error signal), m₂) := by
  induction h with
  | nil =>
    rw [outcome_code] at hc
    rw [List.nil_append, Eval.evaluateAll, Eval.exec_bind, hc]
    simp [hflow]
  | cons hv hplain _ ih =>
    rw [Task.eval] at hv
    rw [List.cons_append, Eval.evaluateAll, Eval.exec_bind, hv]
    simp only [hplain, Bool.false_eq_true, if_false]
    rw [Eval.exec_bind, ih hc]
    rfl

/-- Whatever code is started in the course of other code, its signal is the signal of the other. -/
theorem Starts.cuts_short {t : Moment} (h : Starts limits t ⟨.code depth scope c, m₁⟩) (ht : t.task.isCall = false)
    (hflow : signal.isFlow = true) (hc : outcome limits ⟨.code depth scope c, m₁⟩ = (.ok signal, m₂)) :
    outcome limits t = (.ok signal, m₂) := by
  cases h with
  | first h => exact signal_first h hflow hc
  | second hleft hplain =>
    rw [outcome_code] at hleft hc ⊢
    rw [Eval.evaluate, Eval.exec_andThen, hleft]
    simp only [hplain, Bool.false_eq_true, if_false]
    rw [Eval.exec_andThen, hc]
    simp only [hflow, if_true]
  | andSecond hleft hplain htruth =>
    rw [outcome_code] at hleft hc ⊢
    rw [Eval.evaluate, Eval.exec_andThen, hleft]
    simp only [hplain, Bool.false_eq_true, if_false, Eval.truth, htruth, pure_bind, if_true]
    exact hc
  | orSecond hleft hplain htruth =>
    rw [outcome_code] at hleft hc ⊢
    rw [Eval.evaluate, Eval.exec_andThen, hleft]
    simp only [hplain, Bool.false_eq_true, if_false, Eval.truth, htruth, pure_bind]
    exact hc
  | statement h =>
    rw [outcome_code, Eval.evaluate]
    exact signal_statement h hflow hc .nil
  | item h =>
    rw [outcome_code, Eval.evaluate, Eval.exec_bind, signal_item h hflow hc]
    rfl
  | argument hf h =>
    rw [outcome_code] at hf ⊢
    rw [Eval.evaluate, Eval.exec_andThen, hf]
    simp only [Value.isFlow, Bool.false_eq_true, if_false]
    rw [Eval.exec_bind, signal_item h hflow hc]
    rfl
  | body h => cases ht

end Moment

/-! ## Running trees -/

/-- A tree about to be run on a machine. -/
structure Visit where
  node : Node
  machine : Machine

namespace Visit

section

variable (limits : Limits) (depth : Nat) (scope : ScopeId)

/-- The tree compiles; and its code, run in a scope with room for `depth` calls inside one another, gives the value
and leaves the machine. -/
def Gives (t : Visit) (v : Value) (m : Machine) : Prop :=
  ∃ code, Code.compile limits t.node = .ok code ∧
    Moment.outcome limits ⟨.code depth scope code, t.machine⟩ = (.ok v, m)

/-- Trees that run one after the other, each giving a value that is no signal, and the machine they leave. -/
inductive Passes : List Node → Machine → Machine → Prop where
  | nil {m : Machine} : Passes [] m m
  | cons {n : Node} {ns : List Node} {m m' m'' : Machine} {v : Value} (hn : Gives limits depth scope ⟨n, m⟩ v m')
      (hv : v.isFlow = false) (hns : Passes ns m' m'') : Passes (n :: ns) m m''

/-- The places where a tree runs inside another one, and the machines there. What runs before it gives no signal, and
lets it run. The body of a function is no such place: it runs in the calls of the function. -/
inductive Reaches : Visit → Visit → Prop where
  | group {n x : Node} {m : Machine} (hk : n.kind = .lpar) (hc : n.children = [x]) : Reaches ⟨n, m⟩ ⟨x, m⟩
  | operand {n x : Node} {m : Machine} (hk : n.kind = .not ∨ n.kind = .neg ∨ n.kind = .ret) (hc : n.children = [x]) :
      Reaches ⟨n, m⟩ ⟨x, m⟩
  | assigned {n name x : Node} {m : Machine} (hk : n.kind = .assign) (hc : n.children = [name, x]) :
      Reaches ⟨n, m⟩ ⟨x, m⟩
  | left {n x y : Node} {m : Machine} (hk : n.kind = .and ∨ n.kind = .or ∨ (Operator.ofKind? n.kind).isSome)
      (hc : n.children = [x, y]) : Reaches ⟨n, m⟩ ⟨x, m⟩
  | right {n x y : Node} {m m' : Machine} {v : Value} (hk : (Operator.ofKind? n.kind).isSome)
      (hc : n.children = [x, y]) (hx : Gives limits depth scope ⟨x, m⟩ v m') (hv : v.isFlow = false) :
      Reaches ⟨n, m⟩ ⟨y, m'⟩
  | andRight {n x y : Node} {m m' : Machine} {v : Value} (hk : n.kind = .and) (hc : n.children = [x, y])
      (hx : Gives limits depth scope ⟨x, m⟩ v m') (hv : v.isFlow = false) (ht : v.truth? limits.tuples = some true) :
      Reaches ⟨n, m⟩ ⟨y, m'⟩
  | orRight {n x y : Node} {m m' : Machine} {v : Value} (hk : n.kind = .or) (hc : n.children = [x, y])
      (hx : Gives limits depth scope ⟨x, m⟩ v m') (hv : v.isFlow = false) (ht : v.truth? limits.tuples = some false) :
      Reaches ⟨n, m⟩ ⟨y, m'⟩
  | statement {n x : Node} {before after : List Node} {m m' : Machine} (hk : n.kind = .lbrace)
      (hc : n.children = before ++ x :: after) (hb : Passes limits depth scope before m m') : Reaches ⟨n, m⟩ ⟨x, m'⟩
  | item {n x : Node} {before after : List Node} {m m' : Machine} (hk : n.kind = .comma)
      (hc : n.children = before ++ x :: after) (hb : Passes limits depth scope before m m') : Reaches ⟨n, m⟩ ⟨x, m'⟩
  | callee {n x list : Node} {m : Machine} (hk : n.kind = .apply) (hc : n.children = [x, list]) :
      Reaches ⟨n, m⟩ ⟨x, m⟩
  | argument {n callee list x : Node} {before after : List Node} {f : Function} {m m' m'' : Machine}
      (hk : n.kind = .apply) (hc : n.children = [callee, list])
      (hlist : Code.entries .args list = .ok (before ++ x :: after))
      (hf : Gives limits depth scope ⟨callee, m⟩ (.fn f) m') (hb : Passes limits depth scope before m' m'') :
      Reaches ⟨n, m⟩ ⟨x, m''⟩

end

variable {limits : Limits} {depth : Nat} {scope : ScopeId}

theorem Gives.outcome {t : Visit} {v : Value} {m : Machine} {c : Code} (h : Gives limits depth scope t v m)
    (hc : Code.Compiled limits t.node c) : Moment.outcome limits ⟨.code depth scope c, t.machine⟩ = (.ok v, m) := by
  obtain ⟨code, hcode, h⟩ := h
  rwa [hc.unique (Code.compiled_of_compile hcode)]

theorem Passes.task {ns : List Node} {cs : List Code} {m m' : Machine} (h : Passes limits depth scope ns m m')
    (hcs : List.Forall₂ (Code.Compiled limits) ns cs) : Task.Passes limits depth scope cs m m' := by
  induction h generalizing cs with
  | nil =>
    cases hcs
    exact .nil
  | cons hn hv _ ih =>
    obtain _ | ⟨hc, hcs⟩ := hcs
    exact .cons (hn.outcome hc) hv (ih hcs)

/-- What trees with one in their midst compile to. -/
theorem exists_split {x : Node} {before after : List Node} {cs : List Code}
    (h : List.Forall₂ (Code.Compiled limits) (before ++ x :: after) cs) :
    ∃ bs c rest, List.Forall₂ (Code.Compiled limits) before bs ∧ Code.Compiled limits x c ∧ cs = bs ++ c :: rest := by
  induction before generalizing cs with
  | nil =>
    obtain _ | ⟨hc, -⟩ := h
    exact ⟨[], _, _, .nil, hc, rfl⟩
  | cons n ns ih =>
    obtain _ | ⟨hb, h⟩ := h
    obtain ⟨bs, c, rest, hbs, hc, rfl⟩ := ih h
    exact ⟨_ :: bs, c, rest, .cons hb hbs, hc, rfl⟩

/-- The code of a tree starts the code of a tree that runs inside it, unless it is the same code. -/
theorem Reaches.starts {n x : Node} {m m₁ : Machine} {c : Code} (h : Reaches limits depth scope ⟨n, m⟩ ⟨x, m₁⟩)
    (hn : Code.Compiled limits n c) : ∃ inner, Code.Compiled limits x inner ∧
      Relation.ReflGen (Moment.Starts limits) ⟨.code depth scope c, m⟩ ⟨.code depth scope inner, m₁⟩ := by
  cases h with
  | group hk hc => exact ⟨c, hn.group hk hc, .refl⟩
  | operand hk hc =>
    obtain ⟨inner, hinner, rfl | rfl | rfl⟩ := hn.operand hk hc
    all_goals exact ⟨inner, hinner, .single (.first rfl)⟩
  | assigned hk hc =>
    obtain ⟨name, value, hvalue, rfl⟩ := hn.assign hk hc
    exact ⟨value, hvalue, .single (.first rfl)⟩
  | left hk hc =>
    rcases hk with hk | hk | hk
    · obtain ⟨left, right, hleft, -, rfl⟩ := hn.and hk hc
      exact ⟨left, hleft, .single (.first rfl)⟩
    · obtain ⟨left, right, hleft, -, rfl⟩ := hn.or hk hc
      exact ⟨left, hleft, .single (.first rfl)⟩
    · obtain ⟨op, hop⟩ := Option.isSome_iff_exists.1 hk
      obtain ⟨left, right, hleft, -, rfl⟩ := hn.binary hop hc
      exact ⟨left, hleft, .single (.first rfl)⟩
  | right hk hc hx hv =>
    obtain ⟨op, hop⟩ := Option.isSome_iff_exists.1 hk
    obtain ⟨left, right, hleft, hright, rfl⟩ := hn.binary hop hc
    exact ⟨right, hright, .single (.second (hx.outcome hleft) hv)⟩
  | andRight hk hc hx hv ht =>
    obtain ⟨left, right, hleft, hright, rfl⟩ := hn.and hk hc
    exact ⟨right, hright, .single (.andSecond (hx.outcome hleft) hv ht)⟩
  | orRight hk hc hx hv ht =>
    obtain ⟨left, right, hleft, hright, rfl⟩ := hn.or hk hc
    exact ⟨right, hright, .single (.orSecond (hx.outcome hleft) hv ht)⟩
  | statement hk hc hb =>
    obtain ⟨cs, hcs, rfl⟩ := hn.block hk
    obtain ⟨bs, inner, rest, hbs, hinner, rfl⟩ := exists_split (hc ▸ hcs)
    exact ⟨inner, hinner, .single (.statement (hb.task hbs))⟩
  | item hk hc hb =>
    obtain ⟨cs, hcs, rfl⟩ := hn.tuple hk
    obtain ⟨bs, inner, rest, hbs, hinner, rfl⟩ := exists_split (hc ▸ hcs)
    exact ⟨inner, hinner, .single (.item (hb.task hbs))⟩
  | callee hk hc =>
    obtain ⟨callee, args, cs, hcallee, -, -, rfl⟩ := hn.apply hk hc
    exact ⟨callee, hcallee, .single (.first rfl)⟩
  | argument hk hc hlist hf hb =>
    obtain ⟨callee, args, cs, hcallee, hargs, hcs, rfl⟩ := hn.apply hk hc
    cases hlist.symm.trans hargs
    obtain ⟨bs, inner, rest, hbs, hinner, rfl⟩ := exists_split hcs
    exact ⟨inner, hinner, .single (.argument (hf.outcome hcallee) (hb.task hbs))⟩

/-- A signal goes from tree to tree, from the one that gives it out to the whole. -/
theorem outcome_of_reaches {t : Visit} {hole : Node} {m₁ m₂ : Machine} {signal : Value} {c : Code}
    (h : Relation.ReflTransGen (Reaches limits depth scope) t ⟨hole, m₁⟩) (hflow : signal.isFlow = true)
    (hhole : Gives limits depth scope ⟨hole, m₁⟩ signal m₂) (hc : Code.Compiled limits t.node c) :
    Moment.outcome limits ⟨.code depth scope c, t.machine⟩ = (.ok signal, m₂) := by
  induction h using Relation.ReflTransGen.head_induction_on generalizing c with
  | refl => exact hhole.outcome hc
  | @head t t' hstep _ ih =>
    obtain ⟨n, m⟩ := t
    obtain ⟨x, m'⟩ := t'
    obtain ⟨inner, hinner, hstarts⟩ := hstep.starts hc
    have houtcome := ih hinner
    cases hstarts with
    | refl => exact houtcome
    | single hstart => exact hstart.cuts_short rfl hflow houtcome

end Visit

/-- Signals cut evaluation short. However deep inside a tree, but not inside the body of a function in it, another one
runs: if it gives a signal, the whole tree gives the same signal, and leaves the machine as it was right after. -/
theorem signals_cut_evaluation_short (limits : Limits) (depth : Nat) (scope : ScopeId) {whole hole : Node} {code : Code}
    {m m₁ m₂ : Machine} {kind : FlowKind} {payload : Value} (hcode : Code.compile limits whole = .ok code)
    (hreach : Relation.ReflTransGen (Visit.Reaches limits depth scope) ⟨whole, m⟩ ⟨hole, m₁⟩)
    (hhole : Visit.Gives limits depth scope ⟨hole, m₁⟩ (.flow kind payload) m₂) :
    Eval.exec (Eval.evaluate limits (Eval.call limits depth) scope code) m = (.ok (.flow kind payload), m₂) :=
  Visit.outcome_of_reaches hreach rfl hhole (Code.compiled_of_compile hcode)

/-- In the tree of `y = 2; x = f(1, return y); z = 3`, where `f` is a function, only `y` gets a value. -/
theorem signals_cut_evaluation_short_argument :
    let pos : Position := ⟨1, 1, []⟩
    let leaf (kind : Kind) (text : Text) : Node := ⟨kind, text, [], true, pos⟩
    let hole : Node := ⟨.ret, "return", [leaf .ident "y"], true, pos⟩
    let list : Node := ⟨.lpar, "(", [⟨.comma, ",", [leaf .number "1", hole], true, pos⟩], true, pos⟩
    let call : Node := ⟨.apply, "(", [leaf .ident "f", list], true, pos⟩
    let first : Node := ⟨.assign, "=", [leaf .ident "y", leaf .number "2"], true, pos⟩
    let second : Node := ⟨.assign, "=", [leaf .ident "x", call], true, pos⟩
    let third : Node := ⟨.assign, "=", [leaf .ident "z", leaf .number "3"], true, pos⟩
    let whole : Node := ⟨.lbrace, "\x7b", [first, second, third], true, pos⟩
    let f : Function := ⟨["a", "b"], leaf .lbrace "\x7b", .block [], Store.root⟩
    let m := Machine.initial.bind Store.root "f" (.fn f)
    ∃ code, Code.compile .standard whole = .ok code ∧
      Eval.exec (Eval.evaluate .standard (Eval.call .standard 0) Store.root code) m =
        (.ok (.flow .ret (.int 2)), m.bind Store.root "y" (.int 2)) := by
  intro pos leaf hole list call first second third whole f m
  have hfirst : Visit.Passes .standard 0 Store.root [first] m (m.bind Store.root "y" (.int 2)) :=
    .cons ⟨_, rfl, rfl⟩ rfl .nil
  have hcallee : Visit.Gives .standard 0 Store.root ⟨leaf .ident "f", m.bind Store.root "y" (.int 2)⟩ (.fn f)
      (m.bind Store.root "y" (.int 2)) := ⟨_, rfl, by with_unfolding_all rfl⟩
  have hone : Visit.Passes .standard 0 Store.root [leaf .number "1"] (m.bind Store.root "y" (.int 2))
      (m.bind Store.root "y" (.int 2)) := .cons ⟨_, rfl, rfl⟩ rfl .nil
  have hreach : Relation.ReflTransGen (Visit.Reaches .standard 0 Store.root) ⟨whole, m⟩
      ⟨hole, m.bind Store.root "y" (.int 2)⟩ :=
    .head (@Visit.Reaches.statement _ _ _ whole second [first] [third] _ _ rfl rfl hfirst) <|
    .head (.assigned rfl rfl) <|
    .single (@Visit.Reaches.argument _ _ _ call _ list hole [leaf .number "1"] [] f _ _ _ rfl rfl rfl hcallee hone)
  have hhole : Visit.Gives .standard 0 Store.root ⟨hole, m.bind Store.root "y" (.int 2)⟩ (.flow .ret (.int 2))
      (m.bind Store.root "y" (.int 2)) := ⟨_, rfl, by with_unfolding_all rfl⟩
  exact ⟨_, rfl, signals_cut_evaluation_short .standard 0 Store.root rfl hreach hhole⟩

end Kettle
