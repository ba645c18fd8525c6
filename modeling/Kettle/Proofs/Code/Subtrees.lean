/-
The code of a tree and the codes of the trees in it. A tree has one code at most, however deep it may be, and this code
is made from those of the trees directly below its root, in one way for each kind of root.
-/
import Kettle.Proofs.Code.Deeper
import Mathlib.Data.List.Forall2

namespace Kettle.Code

variable {limits : Limits}

/-- The tree compiles to the code if it may be deep enough. -/
def Compiled (limits : Limits) (n : Node) (c : Code) : Prop := ∃ top depth, compileAt limits top depth n = .ok c

theorem compiled_of_compile {n : Node} {c : Code} (h : compile limits n = .ok c) : Compiled limits n c := ⟨_, _, h⟩

theorem bind_eq_ok {α β : Type} {x : Except Fault α} {f : α → Except Fault β} {b : β} (h : x >>= f = .ok b) :
    ∃ a, x = .ok a ∧ f a = .ok b := by
  cases x with
  | error e => cases h
  | ok a => exact ⟨a, rfl, h⟩

theorem forall₂_of_mapM {α β : Type} {f : α → Except Fault β} {as : List α} {bs : List β} (h : as.mapM f = .ok bs) :
    List.Forall₂ (fun a b => f a = .ok b) as bs := by
  induction as generalizing bs with
  | nil =>
    cases h
    exact .nil
  | cons a as ih =>
    rw [List.mapM_cons] at h
    obtain ⟨b, hb, h⟩ := bind_eq_ok h
    obtain ⟨bs, hbs, h⟩ := bind_eq_ok h
    cases h
    exact .cons hb (ih hbs)

namespace Compiled

variable {n x y : Node} {c c' : Code}

theorem unique (h : Compiled limits n c) (h' : Compiled limits n c') : c = c' := by
  obtain ⟨top, depth, h⟩ := h
  obtain ⟨top', depth', h'⟩ := h'
  have hdeep := compileAt_extends top top depth' depth n c h
  have hdeep' := compileAt_extends top' top depth depth' n c' h'
  rw [Nat.add_comm, hdeep] at hdeep'
  exact Except.ok.inj hdeep'

theorem exists_depth (h : Compiled limits n c) : ∃ top depth, compileAt limits top (depth + 1) n = .ok c := by
  obtain ⟨top, depth, h⟩ := h
  cases depth with
  | zero => cases h
  | succ depth => exact ⟨top, depth, h⟩

theorem all {top : Position} {depth : Nat} {ns : List Node} {cs : List Code}
    (h : ns.mapM (compileAt limits top depth) = .ok cs) : List.Forall₂ (Compiled limits) ns cs :=
  (forall₂_of_mapM h).imp fun _ _ h => ⟨_, _, h⟩

theorem block (h : Compiled limits n c) (hk : n.kind = .lbrace) :
    ∃ cs, List.Forall₂ (Compiled limits) n.children cs ∧ c = .block cs := by
  obtain ⟨top, depth, h⟩ := h.exists_depth
  rw [compileAt] at h
  simp only [hk] at h
  obtain ⟨cs, hcs, h⟩ := bind_eq_ok h
  cases h
  exact ⟨cs, all hcs, rfl⟩

theorem tuple (h : Compiled limits n c) (hk : n.kind = .comma) :
    ∃ cs, List.Forall₂ (Compiled limits) n.children cs ∧ c = .tuple cs := by
  obtain ⟨top, depth, h⟩ := h.exists_depth
  rw [compileAt] at h
  simp only [hk] at h
  obtain ⟨cs, hcs, h⟩ := bind_eq_ok h
  cases h
  exact ⟨cs, all hcs, rfl⟩

theorem group (h : Compiled limits n c) (hk : n.kind = .lpar) (hc : n.children = [x]) : Compiled limits x c := by
  obtain ⟨top, depth, h⟩ := h.exists_depth
  rw [compileAt] at h
  simp only [hk, hc] at h
  exact ⟨_, _, h⟩

theorem assign (h : Compiled limits n c) (hk : n.kind = .assign) (hc : n.children = [x, y]) :
    ∃ name value, Compiled limits y value ∧ c = .assign name value := by
  obtain ⟨top, depth, h⟩ := h.exists_depth
  rw [compileAt] at h
  simp only [hk, two, hc] at h
  obtain ⟨_, ⟨⟩, h⟩ := bind_eq_ok h
  obtain ⟨name, -, h⟩ := bind_eq_ok h
  obtain ⟨value, hvalue, h⟩ := bind_eq_ok h
  cases h
  exact ⟨name, value, ⟨_, _, hvalue⟩, rfl⟩

theorem operand (h : Compiled limits n c) (hk : n.kind = .not ∨ n.kind = .neg ∨ n.kind = .ret) (hc : n.children = [x]) :
    ∃ inner, Compiled limits x inner ∧ (c = .not inner ∨ c = .negate n.pos inner ∨ c = .ret inner) := by
  obtain ⟨top, depth, h⟩ := h.exists_depth
  rw [compileAt] at h
  rcases hk with hk | hk | hk
  all_goals simp only [hk, one, hc] at h
  · obtain ⟨_, ⟨⟩, h⟩ := bind_eq_ok h
    obtain ⟨inner, hinner, h⟩ := bind_eq_ok h
    cases h
    exact ⟨inner, ⟨_, _, hinner⟩, .inl rfl⟩
  · obtain ⟨_, ⟨⟩, h⟩ := bind_eq_ok h
    obtain ⟨inner, hinner, h⟩ := bind_eq_ok h
    cases h
    exact ⟨inner, ⟨_, _, hinner⟩, .inr (.inl rfl)⟩
  · obtain ⟨inner, hinner, h⟩ := bind_eq_ok h
    cases h
    exact ⟨inner, ⟨_, _, hinner⟩, .inr (.inr rfl)⟩

/-- What two operands compile to. -/
theorem both {top : Position} {depth : Nat} {what : Text} {make : Code → Code → Code} (hc : n.children = [x, y])
    (h : (do let sides ← two n what
             let left ← compileAt limits top depth sides.1
             return make left (← compileAt limits top depth sides.2)) = .ok c) :
    ∃ left right, Compiled limits x left ∧ Compiled limits y right ∧ c = make left right := by
  rw [two, hc] at h
  obtain ⟨_, ⟨⟩, h⟩ := bind_eq_ok h
  obtain ⟨left, hleft, h⟩ := bind_eq_ok h
  obtain ⟨right, hright, h⟩ := bind_eq_ok h
  cases h
  exact ⟨left, right, ⟨_, _, hleft⟩, ⟨_, _, hright⟩, rfl⟩

theorem and (h : Compiled limits n c) (hk : n.kind = .and) (hc : n.children = [x, y]) :
    ∃ left right, Compiled limits x left ∧ Compiled limits y right ∧ c = .and left right := by
  obtain ⟨top, depth, h⟩ := h.exists_depth
  rw [compileAt] at h
  simp only [hk] at h
  exact both hc h

theorem or (h : Compiled limits n c) (hk : n.kind = .or) (hc : n.children = [x, y]) :
    ∃ left right, Compiled limits x left ∧ Compiled limits y right ∧ c = .or left right := by
  obtain ⟨top, depth, h⟩ := h.exists_depth
  rw [compileAt] at h
  simp only [hk] at h
  exact both hc h

theorem binary {op : Operator} (h : Compiled limits n c) (hop : Operator.ofKind? n.kind = some op)
    (hc : n.children = [x, y]) :
    ∃ left right, Compiled limits x left ∧ Compiled limits y right ∧ c = .binary op n.pos left right := by
  obtain ⟨top, depth, h⟩ := h.exists_depth
  rw [compileAt] at h
  cases hk : n.kind <;> rw [hk] at hop <;> cases hop <;> simp only [hk, Operator.ofKind?] at h <;> exact both hc h

theorem apply (h : Compiled limits n c) (hk : n.kind = .apply) (hc : n.children = [x, y]) :
    ∃ callee args cs, Compiled limits x callee ∧ entries .args y = .ok args ∧
      List.Forall₂ (Compiled limits) args cs ∧ c = .apply n.pos callee cs := by
  obtain ⟨top, depth, h⟩ := h.exists_depth
  rw [compileAt] at h
  simp only [hk, hc] at h
  obtain ⟨callee, hcallee, h⟩ := bind_eq_ok h
  obtain ⟨args, hargs, h⟩ := bind_eq_ok h
  obtain ⟨cs, hcs, h⟩ := bind_eq_ok h
  cases h
  exact ⟨callee, args, cs, ⟨_, _, hcallee⟩, hargs, all hcs, rfl⟩

end Compiled

end Kettle.Code
