/-
What becomes of operands. Reducing a statement moves operands below operators and never loses, repeats or
reorders one, and grouping, splitting and building hand them on in their order. Only what is complained about
is left out, so the operands of a parsed tree, read from left to right, are some of the operands among the
tokens in their order, and all of them if there are no complaints. Compound assignments, which repeat their
target, are set aside.
-/
import Kettle.Proofs.Tree.Halt
import Kettle.Proofs.Tree.Shape

namespace Kettle

/-! ## Operands -/

/-- Whether a token is an operand by itself: a name other than `fn` and `return`, a number, a string or a jump. -/
def Token.isOperand (t : Token) : Bool :=
  Node.isOperand t.kind && !(t.kind = .ident && (t.text = "fn" || t.text = "return"))

/-- The operands among some tokens, by text and position. -/
def Token.operands (ts : List Token) : List (Text × Position) := (ts.filter isOperand).map fun t => (t.text, t.pos)

namespace Node

variable {n c : Node}

/-- The names, numbers, strings and jumps of a tree from left to right, by text and position. -/
def operands (n : Node) : List (Text × Position) :=
  (n.preorder.filter fun m => isOperand m.kind).map fun m => (m.text, m.pos)

theorem operands_eq (n : Node) :
    n.operands = (if isOperand n.kind then [(n.text, n.pos)] else []) ++ n.children.flatMap operands := by
  have hall : ∀ ns : List Node, ((preorderAll ns).filter fun m => isOperand m.kind).map (fun m => (m.text, m.pos)) =
      ns.flatMap operands := by
    intro ns
    induction ns with
    | nil => rfl
    | cons n ns ih => rw [preorderAll, List.filter_append, List.map_append, ih]; rfl
  rw [operands, preorder_eq, List.filter_cons]
  split
  · rw [List.map_cons, hall]; rfl
  · exact hall n.children

theorem operands_into {kind : Kind} {text : Text} {children : List Node} (hk : isOperand kind = false) :
    (n.into kind text children).operands = children.flatMap operands := by
  rw [operands_eq]
  simp [into, hk]

/-- Of the keywords, `fn` and `return` wait for operands and the others are operands. -/
theorem isOperand_kindOf (t : Token) : isOperand (kindOf t) = t.isOperand := by
  have hkeywords : ∀ entry ∈ keywords, isOperand entry.2 = !(entry.1 = "fn" || entry.1 = "return") := by decide
  unfold Token.isOperand
  by_cases hk : t.kind = .ident
  · rcases kindOf_cases t with hkind | hmem
    · have hwaiting : ¬ (t.text = "fn" ∨ t.text = "return") := by
        rintro (htext | htext) <;> rw [kindOf, if_pos hk, htext, hk] at hkind <;> revert hkind <;> decide
      simp only [not_or] at hwaiting
      simp [hkind, hk, hwaiting]
    · rw [hkeywords _ hmem, hk]
      simp [isOperand]
  · simp [kindOf, hk]

theorem operands_ofToken (t : Token) : (ofToken t).operands = Token.operands [t] := by
  rw [operands_eq, show (ofToken t).kind = kindOf t from rfl, isOperand_kindOf]
  cases ht : t.isOperand with
  | true => simp [ofToken, Token.operands, ht]
  | false => simp [ofToken, Token.operands, ht]

theorem operands_of_loose (t : Token) (h : (ofToken t).resolved = false) : (ofToken t).operands = [] := by
  have ht : t.isOperand = false := by rw [← isOperand_kindOf]; exact h
  rw [operands_ofToken]
  simp [Token.operands, ht]

theorem compound?_kindOf {t : Token} (h : t.kind.compound? = none) : (kindOf t).compound? = none := by
  have hkeywords : ∀ entry ∈ keywords, entry.2.compound? = none := by decide
  rcases kindOf_cases t with hkind | hmem
  · rwa [hkind]
  · exact hkeywords _ hmem

/-- What a statement is made of, if no compound assignment is among it: operands, and tokens that are none. -/
def Simple (n : Node) : Prop := n.resolved = false → n.operands = [] ∧ n.kind.compound? = none

theorem Simple.of_isLoose {k : Kind} (h : n.Simple) (hn : n.isLoose k = true) : n.operands = [] :=
  (h (isLoose_iff.1 hn).1).1

end Node

/-! ## The rules of the grammar -/

namespace Statement

open Node (Simple operands_into)

variable {s : Statement} {t : Node}

/-- A tree has the operands of its statement, in their order. -/
def Keeps (s : Statement) (t : Node) : Prop := t.operands = s.flatMap Node.operands

theorem Callee.keeps (hI : ∀ m ∈ s, m.Simple) (h : Callee s t) : Keeps s t := by
  cases h with
  | name => simp [Keeps]
  | group => simp [Keeps]
  | @function fn params hf _ =>
    have hfn := (hI fn (by simp)).of_isLoose hf
    rw [Keeps, operands_into rfl]
    simp [hfn]
  | @functionBody fn params body hf _ _ =>
    have hfn := (hI fn (by simp)).of_isLoose hf
    rw [Keeps, operands_into rfl]
    simp [hfn]

theorem Elements.keeps {c : Node} {xs : List Node} {P : Phrases} (hI : ∀ m ∈ s, m.Simple)
    (h : Elements (fun s t => Keeps s t ∧ P s t) s c xs) : xs.flatMap Node.operands = s.flatMap Node.operands := by
  induction h with
  | @two s s' x c y hs hc hy =>
    have hcomma := (hI c (by simp)).of_isLoose hc
    have hx : x.operands = _ := hs.1
    have hy : y.operands = _ := hy.1
    simp [hcomma, hx, hy]
  | @more s s' first c y xs _ hc hy ih =>
    have hcomma := (hI c (by simp)).of_isLoose hc
    have hy : y.operands = _ := hy.1
    simp [hcomma, hy, ih (forall_left hI)]

/-- An operator stands between the operands of its sides. -/
theorem keeps_between {s' : Statement} {x op y : Node} {kind : Kind} {text : Text} (hx : Keeps s x) (hy : Keeps s' y)
    (hop : op.operands = []) (hk : Node.isOperand kind = false) : Keeps (s ++ op :: s') (op.into kind text [x, y]) := by
  rw [Keeps] at hx hy
  rw [Keeps, operands_into hk]
  simp [hop, hx, hy]

/-- An operator stands before its operand. -/
theorem keeps_before {op : Node} {kind : Kind} {text : Text} (ht : Keeps s t) (hop : op.operands = [])
    (hk : Node.isOperand kind = false) : Keeps (op :: s) (op.into kind text [t]) := by
  rw [Keeps] at ht
  rw [Keeps, operands_into hk]
  simp [hop, ht]

/-- Every rule of the grammar keeps the operands. -/
theorem keeps_ruleClosed : RuleClosed Simple Keeps where
  leaf _ _ _ := by simp [Keeps]
  callee hI h := h.keeps hI
  call := by
    intro s f args hf _ _ _
    rw [Keeps] at hf
    rw [Keeps, operands_into rfl]
    simp [hf]
  enclosed := by
    rintro n only - ⟨hn, hc, -⟩
    have hk := (Node.isResolved_iff.1 hn).2
    simp [Keeps, n.operands_eq, hk, hc, Node.isOperand, Kind.isString]
  sign := by
    intro op t kind s hop hloose hk ht
    have hkind : Node.isOperand kind = false := by
      revert hk
      cases op.kind <;> simp [unary?] <;> rintro rfl <;> rfl
    exact keeps_before ht (hop hloose).1 hkind
  operation := by
    intro s s' x op y hx hop hloose hk hy
    have hkinds : ∀ k ∈ Node.operatorKinds, Node.isOperand k = false := by decide
    exact keeps_between hx hy (hop hloose).1 (hkinds _ hk)
  commaList := by
    intro s c xs hI h
    rw [Keeps, operands_into rfl]
    exact h.keeps hI
  assign := by
    intro s s' x op y hx hop hloose _ hy
    obtain ⟨hoperands, hcompound⟩ := hop hloose
    unfold assigned
    rw [hcompound]
    exact keeps_between hx hy hoperands rfl
  bare := by
    intro n hn hloose
    rw [Keeps, operands_into rfl]
    simp [hn.of_isLoose hloose]
  ret hn hloose ht := keeps_before ht (hn.of_isLoose hloose) rfl

end Statement

/-! ## Stages -/

namespace Event

variable {ρ ε α β γ : Type}

/-- What the items among some events hold, in their order. -/
def contents (v : α → List γ) (es : List (Event ρ ε α)) : List γ := (items es).flatMap v

/-- All of some events are items: nothing is reported, and nothing stops. -/
def Smooth (es : List (Event ρ ε α)) : Prop := ∀ e ∈ es, ∃ a, e = .item a

/-- What one stage hands on holds what the other one handed on, in its order and none of it twice, and all of
it if nothing is reported or stops. -/
structure Conserves (v : α → List γ) (v' : β → List γ) (es : List (Event ρ ε α)) (es' : List (Event ρ ε β)) : Prop where
  sublist : (contents v' es').Sublist (contents v es)
  whole : Smooth es' → Smooth es ∧ contents v' es' = contents v es

section

variable {v : α → List γ} {v' : β → List γ} {es more : List (Event ρ ε α)} {es' more' : List (Event ρ ε β)}

@[simp] theorem contents_nil : contents v ([] : List (Event ρ ε α)) = [] := rfl

@[simp] theorem contents_item (a : α) : contents v (.item a :: es) = v a ++ contents v es := rfl

@[simp] theorem contents_report (r : ρ) : contents v (.report r :: es) = contents v es := rfl

@[simp] theorem contents_halt (e : ε) : contents v (.halt e :: es) = contents v es := rfl

@[simp] theorem contents_append : contents v (es ++ more) = contents v es ++ contents v more := by
  simp [contents, items_append]

@[simp] theorem contents_map_item (as : List α) :
    contents v (as.map Event.item : List (Event ρ ε α)) = as.flatMap v := by
  induction as with
  | nil => rfl
  | cons a as ih => rw [List.map_cons, contents_item, ih]; rfl

@[simp] theorem contents_map_report (rs : List ρ) :
    contents v (rs.map Event.report : List (Event ρ ε α)) = [] := by
  rw [contents, items_map_report]
  rfl

theorem smooth_append : Smooth (es ++ more) ↔ Smooth es ∧ Smooth more := List.forall_mem_append

theorem smooth_map_item (as : List α) : Smooth (as.map Event.item : List (Event ρ ε α)) := by
  rintro e he
  obtain ⟨a, -, rfl⟩ := List.mem_map.1 he
  exact ⟨a, rfl⟩

theorem not_smooth_report (r : ρ) : ¬ Smooth (.report r :: es) := fun h => by
  obtain ⟨a, ha⟩ := h (.report r) (by simp)
  cases ha

theorem not_smooth_halt (e : ε) : ¬ Smooth (.halt e :: es) := fun h => by
  obtain ⟨a, ha⟩ := h (.halt e) (by simp)
  cases ha

theorem smooth_cons_item {a : α} : Smooth (.item a :: es) ↔ Smooth es :=
  ⟨fun h e he => h e (by simp [he]), fun h => List.forall_mem_cons.2 ⟨⟨a, rfl⟩, h⟩⟩

namespace Conserves

theorem refl (v : α → List γ) (es : List (Event ρ ε α)) : Conserves v v es es := ⟨.refl _, fun h => ⟨h, rfl⟩⟩

theorem trans {δ : Type} {v'' : δ → List γ} {es'' : List (Event ρ ε δ)} (h : Conserves v v' es es')
    (h' : Conserves v' v'' es' es'') : Conserves v v'' es es'' := by
  refine ⟨h'.sublist.trans h.sublist, fun hs => ?_⟩
  obtain ⟨hmid, heq'⟩ := h'.whole hs
  obtain ⟨hfirst, heq⟩ := h.whole hmid
  exact ⟨hfirst, heq'.trans heq⟩

theorem halt (e : ε) : Conserves v v' es [.halt e] :=
  ⟨by simp, fun h => absurd h (not_smooth_halt e)⟩

/-- After a report it does not matter what is left out. -/
theorem report (r : ρ) (h : (contents v' es').Sublist (contents v es)) : Conserves v v' es (.report r :: es') :=
  ⟨h, fun hs => absurd hs (not_smooth_report r)⟩

theorem append (h : Conserves v v' es es') (h' : Conserves v v' more more') :
    Conserves v v' (es ++ more) (es' ++ more') := by
  refine ⟨by simpa using h.sublist.append h'.sublist, fun hs => ?_⟩
  obtain ⟨hs₁, hs₂⟩ := smooth_append.1 hs
  obtain ⟨hfirst, heq⟩ := h.whole hs₁
  obtain ⟨hsecond, heq'⟩ := h'.whole hs₂
  exact ⟨smooth_append.2 ⟨hfirst, hsecond⟩, by simp [heq, heq']⟩

/-- An item that holds nothing may be left out. -/
theorem skip {a : α} (ha : v a = []) (h : Conserves v v' (es ++ more) es') : Conserves v v' (es ++ .item a :: more) es' := by
  refine ⟨by simpa [ha] using h.sublist, fun hs => ?_⟩
  obtain ⟨hbefore, heq⟩ := h.whole hs
  rw [smooth_append] at hbefore
  exact ⟨smooth_append.2 ⟨hbefore.1, smooth_cons_item.2 hbefore.2⟩, by simpa [ha] using heq⟩

theorem chain_self (es more : List (Event ρ ε α)) : Conserves v v (es ++ more) (chain es more) := by
  induction es, more using Event.chain_induct with
  | nil more => exact refl v more
  | halt e rest more => exact halt e
  | report r rest more ih => exact report r ih.sublist
  | item a rest more ih =>
    refine ⟨by simpa using ih.sublist, fun hs => ?_⟩
    obtain ⟨hbefore, heq⟩ := ih.whole (smooth_cons_item.1 hs)
    exact ⟨smooth_cons_item.2 hbefore, by simpa using heq⟩

theorem chain (h : Conserves v v' es es') (h' : Conserves v v' more more') :
    Conserves v v' (es ++ more) (chain es' more') := (h.append h').trans (chain_self es' more')

/-- A stage that works on one item at a time conserves what it conserves of each item. -/
theorem each {f : α → List (Event ρ ε β)} (hf : ∀ a, Event.item a ∈ es → Conserves v v' [.item a] (f a)) :
    Conserves v v' es (each f es) := by
  induction es with
  | nil => exact ⟨.refl _, fun h => ⟨by simp [Smooth], rfl⟩⟩
  | cons e es ih =>
    have hrest := ih fun a ha => hf a (by simp [ha])
    cases e with
    | item a => exact (hf a (by simp)).chain hrest
    | report r => exact report r hrest.sublist
    | halt e => exact halt e

end Conserves

end

end Event

/-! ## Building -/

namespace Tree

open Event (Items Conserves contents Smooth)
open Node (Simple operands)

variable {T : Node → Prop} {n opener : Node} {es : Events Node} {limits : Limits} {source : Text}

/-- The operands of one statement. -/
abbrev operandsOf (s : Statement) : List (Text × Position) := s.flatMap operands

theorem flush_conserves (current : List Node) :
    Conserves operands operandsOf (current.reverse.map Event.item : Events Node) (flush current) := by
  have hcontents := Event.contents_map_item (v := operands) (ρ := Complaint) (ε := Fault) current.reverse
  unfold flush
  split
  · rename_i hempty
    rw [List.isEmpty_iff.1 hempty]
    exact ⟨.refl _, fun _ => ⟨Event.smooth_map_item _, rfl⟩⟩
  · refine ⟨?_, fun _ => ⟨Event.smooth_map_item _, ?_⟩⟩
    · rw [hcontents]
      simp
    · rw [hcontents]
      simp

/-- Splitting takes out separators only. -/
theorem split_conserves (current : List Node) (es : Events Node) (h : Items Simple es) :
    Conserves operands operandsOf (current.reverse.map .item ++ es) (split current es) := by
  induction current, es using split_induct with
  | nil current => simpa using flush_conserves current
  | halt => exact .halt _
  | report current r rest ih =>
    have hrest := ih fun a ha => h a (by simp [ha])
    exact .report r (by simpa using hrest.sublist)
  | separator current n rest hn ih =>
    have hrest := ih fun a ha => h a (by simp [ha])
    have hoperands : n.operands = [] := (h n (by simp) (Node.isSeparator_loose hn).1).1
    exact ((flush_conserves current).append hrest).skip hoperands
  | node current n rest _ ih =>
    have hrest := ih fun a ha => h a (by simp [ha])
    simpa using hrest

theorem settle_conserves {s : Statement} (h : ∀ m ∈ s, m.Delivered ∧ m.Simple) :
    Conserves operandsOf operands [.item s] (settle limits source s) := by
  unfold settle
  split
  · exact .halt _
  · split
    · rename_i n hok
      have hder := (Statement.check_reduce_eq_ok_iff fun m hm => (h m hm).1).1 hok
      have hkeeps : n.operands = _ := Statement.keeps_ruleClosed.derives s n (fun m hm => (h m hm).2) hder
      exact ⟨by simp [hkeeps], fun _ => ⟨by simp [Smooth], by simp [hkeeps]⟩⟩
    · exact .report _ (by simp)

theorem statements_conserves (h : Items (fun n => n.Delivered ∧ n.Simple) es) :
    Conserves operands operands es (statements limits source es) := by
  have hsplit := split_conserves [] es fun a ha => (h a ha).2
  have hstatements := split_items [] es (by simp) fun n hn _ => h n hn
  exact hsplit.trans (.each fun s hs => settle_conserves (hstatements s hs).2)

theorem Built.contents_events {b : Built} (h : b.result = .ok n) : contents operands b.events = n.operands := by
  simp [Built.events, h]

theorem Built.smooth_events {b : Built} (h : b.result = .ok n) : Smooth b.events ↔ b.complaints = [] := by
  rw [Built.events, h, Event.smooth_append]
  cases b.complaints with
  | nil => simp [Smooth]
  | cons c cs => simpa using fun hs => absurd hs (Event.not_smooth_report c)

/-- Events without reports and halts are items. -/
theorem smooth_of_reports (hhalt : Event.halt? es = none) (hreports : Event.reports es = []) : Smooth es := by
  induction es with
  | nil => simp [Smooth]
  | cons e es ih =>
    cases e with
    | item a => exact Event.smooth_cons_item.2 (ih hhalt hreports)
    | report r => cases hreports
    | halt e => cases hhalt

/-- Closing a bracket puts what is inside under one node, which is no operand itself. -/
theorem close_conserves (ho : Node.isOperand opener.kind = false) (es : Events Node) :
    Conserves operands operands es (close opener es).events := by
  cases hresult : (close opener es).result with
  | error e =>
    have hevents : (close opener es).events = (close opener es).complaints.map .report ++ [.halt e] := by
      rw [Built.events, hresult]
    rw [hevents]
    refine ⟨by simp, fun hs => absurd (Event.smooth_append.1 hs).2 (Event.not_smooth_halt e)⟩
  | ok n =>
    have hn : n.operands = contents operands es := by
      rw [close_eq_ok hresult, Node.operands_into ho]
      rfl
    rw [← Built.contents_events hresult] at hn
    refine ⟨hn ▸ .refl _, fun hs => ⟨smooth_of_reports ?_ ((Built.smooth_events hresult).1 hs), hn⟩⟩
    cases hhalt : Event.halt? es with
    | none => rfl
    | some e => simp [close, Event.outcome, hhalt, Except.map] at hresult

theorem isOperand_opening {k : Kind} (h : k.closer?.isSome) : Node.isOperand k = false := by
  revert h
  cases k <;> decide

/-- The nodes since a bracket was opened. -/
def Pending.nodes (pending : Option Pending) : List Node := (pending.map fun p => p.inner.reverse).getD []

/-- Grouping takes out brackets and the end of the source only. -/
theorem group_conserves {build : Node → List Node → Events Node}
    (hb : ∀ o ns, o.kind.closer?.isSome → T o → (∀ n ∈ ns, T n) → Conserves operands operands (ns.map .item) (build o ns))
    (hT : ∀ n, T n → Node.isOperand n.kind = false → n.operands = []) (pending : Option Pending) (es : Events Node)
    (hp : ∀ p ∈ pending, p.Holds T) (hes : Items T es) :
    Conserves operands operands ((Pending.nodes pending).map .item ++ es) (group build pending es) := by
  have hbuild : ∀ p : Pending, p.Holds T → Conserves operands operands (p.inner.reverse.map .item) (build p.opener p.inner.reverse) :=
    fun p hp => hb _ _ hp.opener hp.token fun n hn => hp.inner n (by simpa using hn)
  have hclosing : ∀ k k' : Kind, some k' = k.closer? → Node.isOperand k' = false := by
    intro k k' hk
    cases k <;> cases hk <;> rfl
  have hpush : ∀ (ns : List Node) (n : Node) (rest : Events Node),
      ((n :: ns).reverse.map .item ++ rest : Events Node) = ns.reverse.map .item ++ .item n :: rest := by simp
  induction pending, es using group_induct build with
  | nil => exact .refl _ _
  | unclosed p => exact .report _ (by simpa [Pending.nodes] using (hbuild p (hp p rfl)).sublist)
  | halt => exact .halt _
  | report pending r rest ih =>
    have hrest := ih hp fun a ha => hes a (by simp [ha])
    exact .report r (by simpa using hrest.sublist)
  | opening n rest hn ih =>
    simp only [Bool.and_eq_true] at hn
    have hstart : ∀ p ∈ some (Pending.start n), p.Holds T := by
      rintro p ⟨⟩
      exact ⟨hn.1, hes n (by simp), by simp [Pending.start]⟩
    have hrest := ih hstart fun a ha => hes a (by simp [ha])
    exact hrest.skip (hT n (hes n (by simp)) (isOperand_opening hn.1))
  | outside n rest hn ih =>
    have hrest := ih (by simp) fun a ha => hes a (by simp [ha])
    exact (Conserves.refl operands [.item n]).append hrest
  | deeper p n rest _ ih =>
    have hadd : ∀ q ∈ some (⟨p.opener, p.depth + 1, n :: p.inner⟩ : Pending), q.Holds T := by
      rintro q ⟨⟩
      exact (hp p rfl).add (hes n (by simp)) _
    have hrest := ih hadd fun a ha => hes a (by simp [ha])
    rwa [Pending.nodes, Option.map_some, Option.getD_some, hpush] at hrest
  | closing p n rest hopener hcloser hdepth ih =>
    have hrest := ih (by simp) fun a ha => hes a (by simp [ha])
    have hn : n.operands = [] := hT n (hes n (by simp)) (hclosing _ _ hcloser)
    exact ((hbuild p (hp p rfl)).chain hrest).skip hn
  | shallower p n rest _ _ _ ih =>
    have hadd : ∀ q ∈ some (⟨p.opener, p.depth - 1, n :: p.inner⟩ : Pending), q.Holds T := by
      rintro q ⟨⟩
      exact (hp p rfl).add (hes n (by simp)) _
    have hrest := ih hadd fun a ha => hes a (by simp [ha])
    rwa [Pending.nodes, Option.map_some, Option.getD_some, hpush] at hrest
  | ending p n rest _ _ heof ih =>
    have hrest := ih (by simp) fun a ha => hes a (by simp [ha])
    have hn : n.operands = [] := hT n (hes n (by simp)) (by rw [heof]; rfl)
    have hreported := Conserves.report p.unclosed (hbuild p (hp p rfl)).sublist
    exact (hreported.chain hrest).skip hn
  | inside p n rest _ _ _ ih =>
    have hadd : ∀ q ∈ some (p.push n), q.Holds T := by
      rintro q ⟨⟩
      exact (hp p rfl).add (hes n (by simp)) _
    have hrest := ih hadd fun a ha => hes a (by simp [ha])
    rwa [Pending.nodes, Option.map_some, Option.getD_some, Pending.push, hpush] at hrest

/-- A token that is no compound assignment. -/
def Plain (n : Node) : Prop := IsToken n ∧ n.kind.compound? = none

theorem Plain.operands_eq (h : Plain n) (hk : Node.isOperand n.kind = false) : n.operands = [] := by
  obtain ⟨⟨t, rfl⟩, -⟩ := h
  exact Node.operands_of_loose t hk

/-- Tokens become simple nodes, and so do brackets, whatever is in them. -/
theorem sorts_simple : Sorts Plain Simple fun _ => True where
  token h := h.1
  word h hn := by
    obtain ⟨⟨t, rfl⟩, hcompound⟩ := h
    exact ⟨Node.operands_of_loose t hn, hcompound⟩
  group _ _ _ hn := by cases hn
  tree _ _ := trivial

/-- One level of brackets hands operands on, if the levels inside it do. -/
theorem level_conserves {depth : Nat}
    (hb : ∀ {o : Node} {ns : List Node}, o.kind.closer?.isSome → (∀ n ∈ ns, Plain n) →
      Conserves operands operands (ns.map .item) (build limits depth o ns).events)
    (ho : Node.isOperand opener.kind = false) (hes : Items Plain es) :
    Conserves operands operands es
      (close opener (statements limits source (group (fun n ns => (build limits depth n ns).events) none es))).events := by
  have hgroup := group_conserves (fun o ns ho _ hns => hb ho hns) (fun _ h hk => h.operands_eq hk) none es (by simp) hes
  exact (hgroup.trans (statements_conserves (sorts_simple.grouped depth hes))).trans (close_conserves ho _)

/-- At every depth of brackets, operands are handed on. -/
theorem build_conserves (limits : Limits) : ∀ (depth : Nat) {opener : Node} {inner : List Node}, opener.kind.closer?.isSome →
    (∀ n ∈ inner, Plain n) → Conserves operands operands (inner.map .item) (build limits depth opener inner).events
  | 0, _, _, _, _ => .halt _
  | depth + 1, opener, inner, ho, hi => by
    exact level_conserves (build_conserves limits depth) (isOperand_opening ho) (.map_item hi)

/-- The operands of a scan are those of its tokens. -/
theorem contents_nodes {s : Scan} {pos : Position} (h : s.ending = .finished pos) :
    contents operands (nodes s) = Token.operands s.tokens := by
  have htokens : ∀ ts, (tokenNodes ts).flatMap operands = Token.operands ts := by
    intro ts
    induction ts with
    | nil => rfl
    | cons t ts ih =>
      have hcons : Token.operands (t :: ts) = Token.operands [t] ++ Token.operands ts := by
        simp [Token.operands, ← List.map_append, ← List.filter_append]
      have hnodes : tokenNodes (t :: ts) = tokenNodes [t] ++ tokenNodes ts := tokenNodes_append [t] ts
      rw [hcons, hnodes, List.flatMap_append, ih]
      congr 1
      cases ht : t.kind.isComment with
      | false => simpa [tokenNodes, ht] using Node.operands_ofToken t
      | true =>
        have hk : Node.isOperand t.kind = false := by revert ht; cases t.kind <;> decide
        simp [tokenNodes, ht, Token.operands, Token.isOperand, hk]
  rw [nodes_finished h, Event.contents_append, Event.contents_map_item, htokens, Event.contents_item,
    Node.operands_ofToken]
  exact List.append_nil _

end Tree

/-- Parsing loses, repeats and reorders no operand. A source that is scanned to its end and has no compound
assignment has a tree, unless its brackets or its nodes go too deep. The operands of the tree are leaves. From left to right
they are some of those among the tokens, in their order, and all of them if the parser had no complaints. -/
theorem parse_conserves_operands (limits : Limits) (source text : Text) (pos : Position)
    (h : (scan source text).ending = .finished pos)
    (hc : ∀ t ∈ (scan source text).tokens, t.kind.compound? = none) :
    (parse limits source text).result = .error (Tree.tooDeep source) ∨
      ∃ root, (parse limits source text).result = .ok root ∧
        (∀ m ∈ root.preorder, Node.isOperand m.kind = true → m.children = []) ∧
        root.operands.Sublist (Token.operands (scan source text).tokens) ∧
        ((parse limits source text).complaints = [] → root.operands = Token.operands (scan source text).tokens) := by
  refine (parse_finished limits h).imp_right fun ⟨root, hresult⟩ => ?_
  have hitems : Event.Items Tree.Plain (Tree.nodes (scan source text)) :=
    Tree.nodes_of_tokens (fun t ht _ => ⟨⟨t, rfl⟩, Node.compound?_kindOf (hc t ht)⟩) fun _ _ => ⟨⟨_, rfl⟩, rfl⟩
  have hparse : Event.Conserves Node.operands Node.operands (Tree.nodes (scan source text))
      (parse limits source text).events := Tree.level_conserves (Tree.build_conserves limits limits.brackets) rfl hitems
  have hleaves : ∀ m ∈ root.preorder, Node.isOperand m.kind = true → m.children = [] :=
    fun m hm hk => m.shaped_operand (parse_wellFormed hresult m hm).shaped hk
  have hsublist := hparse.sublist
  rw [Tree.Built.contents_events hresult, Tree.contents_nodes h] at hsublist
  refine ⟨root, hresult, hleaves, hsublist, fun hcomplaints => ?_⟩
  have hwhole := (hparse.whole ((Tree.Built.smooth_events hresult).2 hcomplaints)).2
  rwa [Tree.Built.contents_events hresult, Tree.contents_nodes h] at hwhole

/-- A call with a comment behind it: its operands are there in their order. -/
theorem parse_conserves_operands_call :
    ∃ root, (parse .standard [] "return f(1, -x) # y").result = .ok root ∧
      root.operands.map Prod.fst = [("f" : Text), ("1" : Text), ("x" : Text)] := by
  have hscan : (scan [] "return f(1, -x) # y").ending = .finished ⟨1, 20, []⟩ := by decide +kernel
  have htokens : ((scan [] "return f(1, -x) # y").tokens.all fun t => t.kind.compound? = none) = true := by decide +kernel
  have hcomplaints : (parse .standard [] "return f(1, -x) # y").complaints = [] := by decide +kernel
  rcases parse_conserves_operands .standard [] _ _ hscan (by simpa using htokens) with hdeep | ⟨root, hroot, -, -, hwhole⟩
  · have hkind : ((parse .standard [] "return f(1, -x) # y").result.map fun n => n.kind) = .ok .lbrace := by decide +kernel
    rw [hdeep] at hkind
    cases hkind
  · refine ⟨root, hroot, ?_⟩
    rw [hwhole hcomplaints]
    decide +kernel

end Kettle
