/-
Compiling with room to spare. What a tree compiles to does not depend on how deep it may be, nor on where a tree that is
too deep is at fault.
-/
import Kettle.Code.Compile
import Mathlib.Tactic.Common

namespace Kettle

/-- The second computation gives every result that the first one gives. -/
def Extends {α : Type} (x x' : Except Fault α) : Prop := ∀ a, x = .ok a → x' = .ok a

namespace Extends

variable {α β : Type}

theorem refl (x : Except Fault α) : Extends x x := fun _ h => h

theorem error (f : Fault) (x : Except Fault α) : Extends (.error f) x := by rintro a ⟨⟩

theorem bind {x x' : Except Fault α} {f f' : α → Except Fault β} (hx : Extends x x') (hf : ∀ a, Extends (f a) (f' a)) :
    Extends (x >>= f) (x' >>= f') := by
  cases x with
  | error e => exact error e _
  | ok a =>
    rw [hx a rfl]
    exact hf a

theorem mapM {f f' : α → Except Fault β} (hf : ∀ a, Extends (f a) (f' a)) (as : List α) :
    Extends (as.mapM f) (as.mapM f') := by
  induction as with
  | nil => exact refl _
  | cons a as ih =>
    rw [List.mapM_cons, List.mapM_cons]
    exact (hf a).bind fun b => ih.bind fun bs => refl _

end Extends

namespace Code

variable {limits : Limits}

/-- A tree compiles to the same code where it may be deeper. -/
theorem compileAt_extends (top top' : Position) (more : Nat) : ∀ (depth : Nat) (n : Node),
    Extends (compileAt limits top depth n) (compileAt limits top' (depth + more) n)
  | 0, _ => .error _ _
  | depth + 1, n => by
    have hsub : ∀ m, Extends (compileAt limits top depth m) (compileAt limits top' (depth + more) m) :=
      compileAt_extends top top' more depth
    have hall : ∀ ns : List Node, Extends (ns.mapM (compileAt limits top depth))
        (ns.mapM (compileAt limits top' (depth + more))) := Extends.mapM hsub
    have hboth : ∀ (what : Text) (make : Code → Code → Code), Extends
        (do let sides ← two n what
            let left ← compileAt limits top depth sides.1
            return make left (← compileAt limits top depth sides.2))
        (do let sides ← two n what
            let left ← compileAt limits top' (depth + more) sides.1
            return make left (← compileAt limits top' (depth + more) sides.2)) := fun what make =>
      (Extends.refl _).bind fun sides => (hsub sides.1).bind fun left => (hsub sides.2).bind fun right => .refl _
    have honly : ∀ (what : Text) (make : Code → Code), Extends
        (do return make (← compileAt limits top depth (← one n what)))
        (do return make (← compileAt limits top' (depth + more) (← one n what))) := fun what make =>
      (Extends.refl _).bind fun operand => (hsub operand).bind fun code => .refl _
    rw [Nat.add_right_comm]
    unfold compileAt
    -- one case for each kind of node that compiles, in their order; the last one is for operators
    split
    · exact (hall n.children).bind fun cs => .refl _
    · split
      · exact .refl _
      · exact hsub _
      · exact .refl _
    · exact (hall n.children).bind fun cs => .refl _
    · exact .refl _
    · exact .refl _
    · exact .refl _
    · exact .refl _
    · exact .refl _
    · exact (Extends.refl _).bind fun sides => (Extends.refl _).bind fun name =>
        (hsub sides.2).bind fun value => .refl _
    · exact hboth _ Code.and
    · exact hboth _ Code.or
    · exact honly _ Code.not
    · exact honly _ (Code.negate n.pos)
    · split
      · refine (Extends.refl _).bind fun names => ?_
        split
        · exact .refl _
        · exact (hsub _).bind fun code => .refl _
      · exact .refl _
    · split
      · exact (hsub _).bind fun callee => (Extends.refl _).bind fun args => (hall args).bind fun cs => .refl _
      · exact .refl _
    · split
      · exact .refl _
      · exact (hsub _).bind fun code => .refl _
      · exact .refl _
    · exact .refl _
    · exact .refl _
    · split
      · exact hboth _ _
      · exact .refl _

end Code

end Kettle
