/-
Arithmetic that wraps around at every step. A tree of sums, differences, products and negatives stands for an exact
integer, however large, over integers of 64 bits that are written as digits or that names have. Running it wraps around
at every node of the tree, and what comes out is what the exact integer wraps around to. The tree does not compile only
if one of its numbers is written with more digits than an integer may have, leading zeros included.
-/
import Kettle.Proofs.Code.Faults
import Kettle.Proofs.Value.Integer

namespace Kettle

/-- The integer that a row of digits spells. -/
def Decimal.spelled (digits : Text) : Int := valueOf (digits.map fun r => r.val - 0x30)

/-- The exact integer that a tree of sums, differences, products and negatives stands for. Its leaves are rows of
digits that spell integers of 64 bits, and names, other than the reserved ones, that have integers of 64 bits. -/
inductive Node.Exact (valueOf : Text → Value) : Node → Int → Prop where
  | number {n : Node} (hk : n.kind = .number) (hc : n.children = []) (hdigits : Decimal.AllDigits n.text)
      (hne : n.text ≠ []) (hfits : Word.fits (Decimal.spelled n.text) = true) : Exact valueOf n (Decimal.spelled n.text)
  | name {n : Node} {v : Int} (hk : n.kind = .ident) (hc : n.children = []) (hname : Literal.ofName? n.text = none)
      (hv : valueOf n.text = .int v) (hfits : Word.fits v = true) : Exact valueOf n v
  | plus {n x y : Node} {a b : Int} (hk : n.kind = .plus) (hc : n.children = [x, y]) (hx : Exact valueOf x a)
      (hy : Exact valueOf y b) : Exact valueOf n (a + b)
  | minus {n x y : Node} {a b : Int} (hk : n.kind = .minus) (hc : n.children = [x, y]) (hx : Exact valueOf x a)
      (hy : Exact valueOf y b) : Exact valueOf n (a - b)
  | star {n x y : Node} {a b : Int} (hk : n.kind = .star) (hc : n.children = [x, y]) (hx : Exact valueOf x a)
      (hy : Exact valueOf y b) : Exact valueOf n (a * b)
  | neg {n x : Node} {a : Int} (hk : n.kind = .neg) (hc : n.children = [x]) (hx : Exact valueOf x a) :
      Exact valueOf n (-a)

/-- A tree with a number in it that has more digits than an integer may have. -/
def Node.HoldsOverlong (limits : Limits) (n : Node) : Prop := ∃ leaf ∈ n.preorder, leaf.Overlong limits

/-- What becomes of a tree, compiled `depth` levels deep, in a scope of a machine. With a number in it that has too
many digits it does not compile; else its code has the integer and changes nothing. -/
structure Node.HasInt (limits : Limits) (scope : ScopeId) (m : Machine) (depth : Nat) (n : Node) (v : Int) : Prop where
  overlong (h : n.HoldsOverlong limits) (top : Position) :
    ∃ digits, Code.compileAt limits top depth n = .error (.numeral (.tooLong limits.digits digits))
  runs (h : ¬ n.HoldsOverlong limits) (top : Position) :
    ∃ code, Code.compileAt limits top depth n = .ok code ∧
      ∀ call, Eval.exec (Eval.evaluate limits call scope code) m = (.ok (.int v), m)

section

variable {limits : Limits} {scope : ScopeId} {m : Machine} {depth : Nat} {top : Position} {n x y : Node} {a b v : Int}

theorem Node.holdsOverlong_iff :
    n.HoldsOverlong limits ↔ n.Overlong limits ∨ ∃ c ∈ n.children, c.HoldsOverlong limits := by
  simp only [HoldsOverlong, preorder_eq n, List.mem_cons, mem_preorderAll, or_and_right, exists_or, exists_eq_left,
    ← exists_and_left, ← exists_and_right, and_assoc]
  rw [exists_comm]

/-! ## Leaves -/

theorem Decimal.AllDigits.contains_point {t : Text} (h : AllDigits t) : t.contains ('.' : Rune) = false := by
  rw [← Bool.not_eq_true, List.contains_iff_mem]
  intro hmem
  cases h _ hmem

theorem Literal.ofNumber_digits {digits : Text} (hdigits : Decimal.AllDigits digits) (hne : digits ≠ [])
    (hfits : Word.fits (Decimal.spelled digits) = true) (pos : Position) :
    ofNumber limits digits pos =
      if limits.digits < digits.length then .error (.numeral (.tooLong limits.digits digits.length))
      else .ok (.int (Decimal.spelled digits)) := by
  rw [ofNumber, hdigits.contains_point, Decimal.readInt_digits limits.digits hdigits hne]
  by_cases hlong : limits.digits < digits.length
  · rw [if_pos hlong, if_pos hlong]
    rfl
  · rw [if_neg hlong, if_neg hlong]
    exact if_pos hfits

theorem Node.HasInt.number (hk : n.kind = .number) (hc : n.children = []) (hdigits : Decimal.AllDigits n.text)
    (hne : n.text ≠ []) (hfits : Word.fits (Decimal.spelled n.text) = true) :
    n.HasInt limits scope m (depth + 1) (Decimal.spelled n.text) := by
  have hcode : ∀ top, Code.compileAt limits top (depth + 1) n = do
      return .literal (← Literal.ofNumber limits n.text n.pos) := by
    intro top
    rw [Code.compileAt]
    simp only [hk]
  have hlong : n.HoldsOverlong limits ↔ limits.digits < n.text.length := by
    rw [holdsOverlong_iff, hc, Overlong, hk, hdigits.contains_point]
    simp
  simp only [Literal.ofNumber_digits hdigits hne hfits] at hcode
  refine ⟨fun h top => ?_, fun h top => ?_⟩
  · rw [hcode, if_pos (hlong.1 h)]
    exact ⟨_, rfl⟩
  · rw [hcode, if_neg (mt hlong.2 h)]
    exact ⟨_, rfl, fun call => by rw [Eval.evaluate]; rfl⟩

theorem Node.HasInt.name (hk : n.kind = .ident) (hc : n.children = []) (hname : Literal.ofName? n.text = none)
    (hv : m.store.lookup scope n.text = .int v) : n.HasInt limits scope m (depth + 1) v := by
  have hcode : ∀ top, Code.compileAt limits top (depth + 1) n = .ok (.lookup n.text) := by
    intro top
    rw [Code.compileAt]
    simp only [hk, hname]
    rfl
  have hshort : ¬ n.HoldsOverlong limits := by
    rw [holdsOverlong_iff, hc, Overlong, hk]
    simp
  refine ⟨fun h => absurd h hshort, fun _ top => ⟨_, hcode top, fun call => ?_⟩⟩
  rw [Eval.evaluate, Eval.exec_lookup, hv]

/-! ## Operations -/

theorem Code.compileAt_operation {op : Arithmetic} (hop : Operator.ofKind? n.kind = some (.arithmetic op))
    (hc : n.children = [x, y]) : compileAt limits top (depth + 1) n = do
      let left ← compileAt limits top depth x
      return .binary (.arithmetic op) n.pos left (← compileAt limits top depth y) := by
  rw [compileAt]
  cases hk : n.kind <;> rw [hk] at hop <;> cases hop <;> simp only [Operator.ofKind?, two, hc] <;> rfl

theorem Code.compileAt_negation (hk : n.kind = .neg) (hc : n.children = [x]) :
    compileAt limits top (depth + 1) n = do return .negate n.pos (← compileAt limits top depth x) := by
  rw [compileAt]
  simp only [hk, one, hc]
  rfl

/-- An operation wraps around once more what its operands have. -/
theorem Node.HasInt.operation {op : Arithmetic} (hop : Operator.ofKind? n.kind = some (.arithmetic op))
    (hc : n.children = [x, y]) (hx : x.HasInt limits scope m depth a) (hy : y.HasInt limits scope m depth b)
    (hv : op.onInts a b = .ok v) : n.HasInt limits scope m (depth + 1) v := by
  have hlong : n.HoldsOverlong limits ↔ x.HoldsOverlong limits ∨ y.HoldsOverlong limits := by
    have hnumber : n.kind ≠ .number := by
      intro hk
      rw [hk] at hop
      cases hop
    simp [holdsOverlong_iff (n := n), hc, Overlong, hnumber]
  have happly : (Operator.arithmetic op).apply (.int a) (.int b) = .ok (.int v) := by
    rw [Operator.apply, Operator.onInts, hv]
    rfl
  refine ⟨fun h top => ?_, fun h top => ?_⟩
  · rw [Code.compileAt_operation hop hc]
    -- the left operand compiles first, so that the right one counts only if the left one compiles
    by_cases hleft : x.HoldsOverlong limits
    · obtain ⟨digits, hdigits⟩ := hx.overlong hleft top
      exact ⟨digits, by rw [hdigits]; rfl⟩
    · obtain ⟨left, hcode, -⟩ := hx.runs hleft top
      obtain ⟨digits, hdigits⟩ := hy.overlong ((hlong.1 h).resolve_left hleft) top
      exact ⟨digits, by rw [hcode, hdigits]; rfl⟩
  · rw [hlong, not_or] at h
    obtain ⟨left, hleft, ha⟩ := hx.runs h.1 top
    obtain ⟨right, hright, hb⟩ := hy.runs h.2 top
    rw [Code.compileAt_operation hop hc, hleft, hright]
    refine ⟨_, rfl, fun call => ?_⟩
    rw [Eval.evaluate, Eval.exec_andThen, ha call]
    simp only [Value.isFlow, Eval.exec_andThen, hb call, Eval.binary, happly]
    rfl

theorem Node.HasInt.negation (hk : n.kind = .neg) (hc : n.children = [x]) (hx : x.HasInt limits scope m depth a) :
    n.HasInt limits scope m (depth + 1) (Word.wrap (-a)) := by
  have hlong : n.HoldsOverlong limits ↔ x.HoldsOverlong limits := by
    simp [holdsOverlong_iff (n := n), hc, Overlong, hk]
  refine ⟨fun h top => ?_, fun h top => ?_⟩
  · obtain ⟨digits, hdigits⟩ := hx.overlong (hlong.1 h) top
    rw [Code.compileAt_negation hk hc, hdigits]
    exact ⟨digits, rfl⟩
  · obtain ⟨code, hcode, ha⟩ := hx.runs (mt hlong.2 h) top
    rw [Code.compileAt_negation hk hc, hcode]
    refine ⟨_, rfl, fun call => ?_⟩
    rw [Eval.evaluate, Eval.exec_andThen, ha call]
    rfl

/-! ## Trees -/

/-- Below the root of a tree there is one level less. -/
theorem Node.exists_depth_children (h : n.depth ≤ depth) :
    ∃ below, depth = below + 1 ∧ ∀ c ∈ n.children, c.depth ≤ below := by
  obtain ⟨kind, text, children, resolved, pos⟩ := n
  obtain ⟨below, rfl⟩ := Nat.exists_eq_add_of_le' ((Nat.succ_pos _).trans_le h)
  exact ⟨below, rfl, fun c hc => (depth_le_depthAll hc).trans (Nat.le_of_succ_le_succ h)⟩

/-- Wrapping around at every step of a tree is wrapping around once at its end. -/
theorem Node.Exact.hasInt (h : n.Exact (m.store.lookup scope) v) (hdepth : n.depth ≤ depth) :
    n.HasInt limits scope m depth (Word.wrap v) := by
  induction h generalizing depth with
  | number hk hc hdigits hne hfits =>
    obtain ⟨below, rfl, -⟩ := exists_depth_children hdepth
    rw [Word.wrap_of_fits hfits]
    exact .number hk hc hdigits hne hfits
  | name hk hc hname hv hfits =>
    obtain ⟨below, rfl, -⟩ := exists_depth_children hdepth
    rw [Word.wrap_of_fits hfits]
    exact .name hk hc hname hv
  | @plus n x y a b hk hc hx hy ihx ihy =>
    obtain ⟨below, rfl, hbelow⟩ := exists_depth_children hdepth
    rw [← Word.wrap_add]
    exact .operation (by rw [hk]; rfl) hc (ihx (hbelow x (by simp [hc]))) (ihy (hbelow y (by simp [hc]))) rfl
  | @minus n x y a b hk hc hx hy ihx ihy =>
    obtain ⟨below, rfl, hbelow⟩ := exists_depth_children hdepth
    rw [← Word.wrap_sub]
    exact .operation (by rw [hk]; rfl) hc (ihx (hbelow x (by simp [hc]))) (ihy (hbelow y (by simp [hc]))) rfl
  | @star n x y a b hk hc hx hy ihx ihy =>
    obtain ⟨below, rfl, hbelow⟩ := exists_depth_children hdepth
    rw [← Word.wrap_mul]
    exact .operation (by rw [hk]; rfl) hc (ihx (hbelow x (by simp [hc]))) (ihy (hbelow y (by simp [hc]))) rfl
  | @neg n x a hk hc hx ih =>
    obtain ⟨below, rfl, hbelow⟩ := exists_depth_children hdepth
    rw [← Word.wrap_neg]
    exact .negation hk hc (ih (hbelow x (by simp [hc])))

end

/-- A tree of sums, differences, products and negatives that is not too deep to compile has one outcome. With a number
in it that has too many digits it does not compile. Else its code gives, however calls are made, the only integer of 64
bits that is congruent modulo 2 ^ 64 to the exact integer the tree stands for, and changes nothing. -/
theorem wrapping_at_every_step_wraps_once (limits : Limits) (scope : ScopeId) (m : Machine) (n : Node) (v : Int)
    (hn : n.Exact (m.store.lookup scope) v) (hdepth : n.depth ≤ limits.nodes) :
    (n.HoldsOverlong limits →
      ∃ digits, Code.compile limits n = .error (.numeral (.tooLong limits.digits digits))) ∧
    (¬ n.HoldsOverlong limits → ∃ w, (-2 ^ 63 ≤ w ∧ w ≤ 2 ^ 63 - 1) ∧ w ≡ v [ZMOD 2 ^ 64] ∧
      (∀ w', -2 ^ 63 ≤ w' ∧ w' ≤ 2 ^ 63 - 1 → w' ≡ v [ZMOD 2 ^ 64] → w' = w) ∧
      ∃ code, Code.compile limits n = .ok code ∧
        ∀ call, Eval.exec (Eval.evaluate limits call scope code) m = (.ok (.int w), m)) := by
  have hint : n.HasInt limits scope m limits.nodes (Word.wrap v) := hn.hasInt hdepth
  refine ⟨fun hlong => hint.overlong hlong n.pos, fun hshort => ?_⟩
  refine ⟨Word.wrap v, Word.fits_iff.1 (Word.fits_wrap v), Word.wrap_modEq v, fun w hrange hcongr => ?_,
    hint.runs hshort n.pos⟩
  rw [← Word.wrap_of_fits (Word.fits_iff.2 hrange)]
  exact Word.wrap_congr hcongr

/-- The greatest integer of 64 bits, times two and plus two, is 0. -/
theorem wrapping_at_every_step_wraps_once_cancelled :
    let x : Node := ⟨.ident, "x", [], true, ⟨1, 1, []⟩⟩
    let two : Node := ⟨.number, "2", [], true, ⟨1, 5, []⟩⟩
    let product : Node := ⟨.star, "*", [x, two], true, ⟨1, 3, []⟩⟩
    let sum : Node := ⟨.plus, "+", [product, two], true, ⟨1, 7, []⟩⟩
    let m := Machine.initial.bind Store.root "x" (.int (2 ^ 63 - 1))
    sum.Exact (m.store.lookup Store.root) (2 ^ 64) ∧ ∃ code, Code.compile .standard sum = .ok code ∧
      ∀ call, Eval.exec (Eval.evaluate .standard call Store.root code) m = (.ok (.int 0), m) := by
  intro x two product sum m
  have hx : x.Exact (m.store.lookup Store.root) (2 ^ 63 - 1) :=
    .name rfl rfl (by decide) (by with_unfolding_all rfl) (by decide)
  have htwo : two.Exact (m.store.lookup Store.root) 2 :=
    .number rfl rfl (List.forall_mem_singleton.2 rfl) (by decide) (by decide)
  have hsum : sum.Exact (m.store.lookup Store.root) (2 ^ 64) := .plus rfl rfl (.star rfl rfl hx htwo) htwo
  have hshort : ¬ sum.HoldsOverlong .standard := by
    unfold Node.HoldsOverlong Node.Overlong
    decide
  obtain ⟨-, hruns⟩ := wrapping_at_every_step_wraps_once .standard Store.root m sum (2 ^ 64) hsum (by decide)
  obtain ⟨w, -, -, hunique, hcode⟩ := hruns hshort
  rw [hunique 0 (by decide) (by decide)]
  exact ⟨hsum, hcode⟩

theorem Decimal.spelled_zeros (t : Text) : ∀ n, spelled (List.replicate n ('0' : Rune) ++ t) = spelled t
  | 0 => rfl
  | n + 1 => spelled_zeros t n

/-- Within the limits of the interpreter, 1 with 4300 zeros before it stands for the integer 1, but does not compile. -/
theorem overlong_one_does_not_compile :
    let text : Text := List.replicate 4300 ('0' : Rune) ++ ("1" : Text)
    let one : Node := ⟨.number, text, [], true, ⟨1, 1, []⟩⟩
    one.Exact (Machine.initial.store.lookup Store.root) 1 ∧ ¬ ∃ code, Code.compile .standard one = .ok code := by
  intro text one
  have hdigits : Decimal.AllDigits text := by
    refine List.forall_mem_append.2 ⟨fun r hr => ?_, List.forall_mem_singleton.2 rfl⟩
    rw [List.eq_of_mem_replicate hr]
    rfl
  have hspelled : Decimal.spelled text = 1 := Decimal.spelled_zeros "1" 4300
  have hlength : text.length = 4301 := by rw [List.length_append, List.length_replicate]; rfl
  have hone : one.Exact (Machine.initial.store.lookup Store.root) 1 := by
    rw [← hspelled]
    exact .number rfl rfl hdigits (List.append_ne_nil_of_right_ne_nil _ (by decide)) (by rw [hspelled]; decide)
  have hlong : one.HoldsOverlong .standard :=
    ⟨one, one.mem_preorder_self, rfl, hdigits.contains_point, by rw [hlength]; decide⟩
  have hint : one.HasInt .standard Store.root .initial Limits.standard.nodes (Word.wrap 1) := hone.hasInt (by decide)
  obtain ⟨digits, hfault⟩ := hint.overlong hlong one.pos
  refine ⟨hone, fun ⟨code, hcode⟩ => ?_⟩
  cases hfault.symm.trans hcode

end Kettle
