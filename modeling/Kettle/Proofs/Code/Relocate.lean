/-
Compiling moved trees. A tree compiles as it does where its positions are others: the code differs in
positions only, and so does the fault of a tree that does not compile.
-/
import Kettle.Code.Compile
import Kettle.Proofs.Tree.Relocate

namespace Kettle

/-- The second computation gives what the result of the first one stands for, or both stop at faults that
are alike. -/
def Follows {α β : Type} (g : α → β) (x : Except Fault α) (x' : Except Fault β) : Prop := Agree (fun a b => g a = b) x x'

namespace Follows

variable {α β α' β' : Type} {g : α → β} {g' : α' → β'} {x : Except Fault α} {x' : Except Fault β}

theorem ok (g : α → β) (a : α) : Follows g (.ok a) (.ok (g a)) := rfl

theorem error {f f' : Fault} (h : f.Alike f') : Follows g (.error f) (.error f') := h

theorem fault (n n' : Node) (cause : CompileCause) : Follows g (Code.fault n cause) (Code.fault n' cause) := error rfl

theorem of_ok {a : α} (h : Follows g x x') (hx : x = .ok a) : x' = .ok (g a) := by
  subst hx
  cases x' with
  | error f => cases h
  | ok b => exact congrArg _ (Eq.symm h)

theorem bind {f : α → Except Fault α'} {f' : β → Except Fault β'} (hx : Follows g x x')
    (hf : ∀ a, Follows g' (f a) (f' (g a))) : Follows g' (x >>= f) (x' >>= f') := by
  cases x with
  | error e =>
    cases x' with
    | error e' => exact hx
    | ok b => cases hx
  | ok a =>
    rw [hx.of_ok rfl]
    exact hf a

theorem mapM {f : α → Except Fault α'} {f' : β → Except Fault β'} (hf : ∀ a, Follows g' (f a) (f' (g a)))
    (as : List α) : Follows (List.map g') (as.mapM f) ((as.map g).mapM f') := by
  induction as with
  | nil => exact ok _ []
  | cons a as ih =>
    rw [List.map_cons, List.mapM_cons, List.mapM_cons]
    exact (hf a).bind fun b => ih.bind fun bs => ok _ (b :: bs)

end Follows

namespace Code

mutual

/-- The code with all positions moved. -/
def relocate (φ : Position → Position) : Code → Code
  | .literal l => .literal l
  | .lookup name => .lookup name
  | .assign name value => .assign name (relocate φ value)
  | .binary op pos left right => .binary op (φ pos) (relocate φ left) (relocate φ right)
  | .and left right => .and (relocate φ left) (relocate φ right)
  | .or left right => .or (relocate φ left) (relocate φ right)
  | .not operand => .not (relocate φ operand)
  | .negate pos operand => .negate (φ pos) (relocate φ operand)
  | .block statements => .block (relocateAll φ statements)
  | .tuple items => .tuple (relocateAll φ items)
  | .function params body code => .function params (body.relocate φ) (relocate φ code)
  | .apply pos callee args => .apply (φ pos) (relocate φ callee) (relocateAll φ args)
  | .ret operand => .ret (relocate φ operand)
  | .jump kind => .jump kind

/-- Several pieces of code with all positions moved. -/
def relocateAll (φ : Position → Position) : List Code → List Code
  | [] => []
  | c :: cs => relocate φ c :: relocateAll φ cs

end

theorem relocateAll_eq (φ : Position → Position) (cs : List Code) : relocateAll φ cs = cs.map (relocate φ) := by
  induction cs with
  | nil => rfl
  | cons c cs ih => rw [relocateAll, ih]; rfl

variable {φ : Position → Position} {limits : Limits}

theorem two_relocate (n : Node) (what : Text) :
    Follows (Prod.map (Node.relocate φ) (Node.relocate φ)) (two n what) (two (n.relocate φ) what) := by
  unfold two
  rw [Node.relocate_children]
  match n.children with
  | [] => exact .fault _ _ _
  | [_] => exact .fault _ _ _
  | [left, right] => exact .ok _ (left, right)
  | _ :: _ :: _ :: _ =>
    simp only [List.map_cons, List.length_cons, List.length_map]
    exact .fault _ _ _

theorem one_relocate (n : Node) (what : Text) : Follows (Node.relocate φ) (one n what) (one (n.relocate φ) what) := by
  unfold one
  rw [Node.relocate_children]
  match n.children with
  | [] => exact .fault _ _ _
  | [operand] => exact .ok _ operand
  | _ :: _ :: _ =>
    simp only [List.map_cons, List.length_cons, List.length_map]
    exact .fault _ _ _

theorem target_relocate (n : Node) : Follows id (target n) (target (n.relocate φ)) := by
  unfold target
  rw [Node.relocate_kind, Node.relocate_text, Node.compact_relocate]
  split
  · exact .fault _ _ _
  · split
    · exact .fault _ _ _
    · exact .ok _ n.text

theorem entries_relocate (list : Listing) (group : Node) :
    Follows (List.map (Node.relocate φ)) (entries list group) (entries list (group.relocate φ)) := by
  unfold entries
  rw [Node.relocate_kind, Node.relocate_children]
  split
  · exact .ok _ [group]
  · match group.children with
    | [] => exact .ok _ []
    | [only] =>
      simp only [List.map_cons, List.map_nil, Node.relocate_kind]
      split
      · rw [Node.relocate_children]; exact .ok _ only.children
      · exact .ok _ [only]
    | _ :: _ :: _ => exact .fault _ _ _

theorem names_relocate (seen : List Text) (ns : List Node) :
    Follows id (names seen ns) (names seen (ns.map (Node.relocate φ))) := by
  induction ns generalizing seen with
  | nil => exact .ok _ seen
  | cons n ns ih =>
    rw [List.map_cons, names, names, Node.relocate_kind, Node.relocate_text, Node.compact_relocate]
    split
    · exact .fault _ _ _
    · split
      · exact .fault _ _ _
      · exact ih _

theorem params_relocate (n : Node) : Follows id (params n) (params (n.relocate φ)) := by
  unfold params
  rw [Node.relocate_kind]
  split
  · exact .fault _ _ _
  · exact (entries_relocate .params n).bind fun ns => names_relocate [] ns

theorem ofNumber_relocate (text : Text) (pos pos' : Position) :
    Follows id (Literal.ofNumber limits text pos) (Literal.ofNumber limits text pos') := by
  have hfloat : Follows id (Literal.floatOf text pos) (Literal.floatOf text pos') := by
    unfold Literal.floatOf
    split
    · exact .ok _ _
    · exact .error rfl
  unfold Literal.ofNumber
  split
  · exact hfloat
  · split
    · exact .error rfl
    · exact .error rfl
    · split
      · exact .ok _ _
      · exact hfloat

theorem ofString_relocate (kind : Kind) (text : Text) (pos pos' : Position) :
    Follows id (Literal.ofString kind text pos) (Literal.ofString kind text pos') := by
  unfold Literal.ofString Literal.decodeAt
  split
  · exact .ok _ _
  · cases Literal.decode (Literal.inside text) with
    | ok t => exact .ok _ _
    | error e => exact .error rfl

/-- A tree compiles elsewhere as it does here, to the same code but for positions or with a fault that is alike;
and nothing depends on where too deep trees are reported. -/
theorem compileAt_relocate (top top' : Position) : ∀ (depth : Nat) (n : Node),
    Follows (relocate φ) (compileAt limits top depth n) (compileAt limits top' depth (n.relocate φ))
  | 0, n => .error rfl
  | depth + 1, n => by
    have hsub : ∀ m, Follows (relocate φ) (compileAt limits top depth m)
        (compileAt limits top' depth (m.relocate φ)) := compileAt_relocate top top' depth
    have hall : ∀ ns : List Node, Follows (List.map (relocate φ)) (ns.mapM (compileAt limits top depth))
        ((ns.map (Node.relocate φ)).mapM (compileAt limits top' depth)) := fun ns => Follows.mapM hsub ns
    have hblock : ∀ cs : List Code, relocate φ (.block cs) = .block (cs.map (relocate φ)) := by
      intro cs; rw [relocate, relocateAll_eq]
    have htuple : ∀ cs : List Code, relocate φ (.tuple cs) = .tuple (cs.map (relocate φ)) := by
      intro cs; rw [relocate, relocateAll_eq]
    unfold compileAt
    simp only [Node.relocate_kind, Node.relocate_text, Node.relocate_pos, Node.relocate_children]
    -- one case for each kind of node that compiles, in their order; the last one is for operators
    split
    · refine (hall n.children).bind fun cs => ?_
      rw [← hblock]
      exact .ok _ _
    · match n.children with
      | [] => exact Follows.ok _ (Code.tuple [])
      | [only] => exact hsub only
      | _ :: _ :: _ => exact .fault _ _ _
    · refine (hall n.children).bind fun cs => ?_
      rw [← htuple]
      exact .ok _ _
    · split
      · exact Follows.ok _ (Code.literal _)
      · exact Follows.ok _ (Code.lookup n.text)
    · exact (ofNumber_relocate n.text n.pos (φ n.pos)).bind fun l => Follows.ok _ (Code.literal l)
    · exact (ofString_relocate n.kind n.text n.pos (φ n.pos)).bind fun l => Follows.ok _ (Code.literal l)
    · exact (ofString_relocate n.kind n.text n.pos (φ n.pos)).bind fun l => Follows.ok _ (Code.literal l)
    · exact (ofString_relocate n.kind n.text n.pos (φ n.pos)).bind fun l => Follows.ok _ (Code.literal l)
    · refine (two_relocate n _).bind fun sides => (target_relocate sides.1).bind fun name => ?_
      exact (hsub sides.2).bind fun value => Follows.ok _ (Code.assign name value)
    · refine (two_relocate n _).bind fun sides => (hsub sides.1).bind fun left => ?_
      exact (hsub sides.2).bind fun right => Follows.ok _ (Code.and left right)
    · refine (two_relocate n _).bind fun sides => (hsub sides.1).bind fun left => ?_
      exact (hsub sides.2).bind fun right => Follows.ok _ (Code.or left right)
    · exact (one_relocate n _).bind fun operand => (hsub operand).bind fun c => Follows.ok _ (Code.not c)
    · exact (one_relocate n _).bind fun operand => (hsub operand).bind fun c => Follows.ok _ (Code.negate n.pos c)
    · -- a function keeps the tree of its body, which moves with its code
      match n.children with
      | [] => exact .fault _ _ _
      | [_] => exact .fault _ _ _
      | [list, body] =>
        refine (params_relocate list).bind fun names => ?_
        rw [Node.relocate_kind]
        split
        · exact .fault _ _ _
        · exact (hsub body).bind fun code => Follows.ok _ (Code.function names body code)
      | _ :: _ :: _ :: _ => exact .fault _ _ _
    · match n.children with
      | [] => exact .fault _ _ _
      | [_] => exact .fault _ _ _
      | [callee, list] =>
        refine (hsub callee).bind fun f => (entries_relocate .args list).bind fun args => ?_
        refine (hall args).bind fun cs => ?_
        rw [← relocateAll_eq]
        exact Follows.ok _ (Code.apply n.pos f cs)
      | _ :: _ :: _ :: _ => exact .fault _ _ _
    · match n.children with
      | [] => exact Follows.ok _ (Code.ret (.literal .nil))
      | [operand] => exact (hsub operand).bind fun c => Follows.ok _ (Code.ret c)
      | _ :: _ :: _ => exact .fault _ _ _
    · exact Follows.ok _ (Code.jump .brk)
    · exact Follows.ok _ (Code.jump .cont)
    · split
      · rename_i op _
        refine (two_relocate n _).bind fun sides => (hsub sides.1).bind fun left => ?_
        exact (hsub sides.2).bind fun right => Follows.ok _ (Code.binary op n.pos left right)
      · exact .fault _ _ _

end Code

end Kettle
