/-
Building a tree in any order of work. Grouping brackets, splitting, each reduction and the check are stages of a line,
and so they are inside every group. In whichever order they do their work, the tree is the same, and so are the
complaints but for their order: for the parse, which takes one item at a time, as for the stages one after the other.
-/
import Kettle.Proofs.Stage.Line
import Kettle.Proofs.Tree.Halt

namespace Kettle

/-! ## A stage for each item -/

namespace Event

variable {ρ ε α β γ : Type}

/-- Two stages that work on one item at a time are one. -/
theorem each_each (f : β → List (Event ρ ε γ)) (g : α → List (Event ρ ε β)) (es : List (Event ρ ε α)) :
    each f (each g es) = each (fun a => each f (g a)) es := by
  induction es with
  | nil => rfl
  | cons e es ih =>
    cases e with
    | item a => rw [each, each_chain, ih, each]
    | report r => exact congrArg _ ih
    | halt e => rfl

end Event

namespace Worker

variable {ρ ε α β : Type}

/-- The stage that works on one item at a time and remembers nothing. -/
def each (f : α → Batch ρ ε β) : Worker ρ ε Unit α β := ⟨(), fun _ a => ((), f a), fun _ => ⟨[], none⟩⟩

theorem run_each (f : α → Batch ρ ε β) (s : Unit) (es : List (Event ρ ε α)) :
    (each f).run s es = Event.each (fun a => (f a).events) es := by
  induction es with
  | nil => rfl
  | cons e es ih =>
    cases e with
    | item a => exact congrArg (Event.chain _) ih
    | report r => exact congrArg _ ih
    | halt e => rfl

end Worker

namespace Tree

variable {limits : Limits} {source : Text} {inside inside' : Node → List Node → Built}

/-! ## The stages -/

/-- The stage that groups brackets, if their insides are built so. -/
def bracketStage (inside : Node → List Node → Built) : Worker Complaint Fault (Option Pending) Node Node where
  start := none
  take
    | none, n =>
      if n.kind.closer?.isSome && !n.resolved then (some (.start n), ⟨[], none⟩) else (none, ⟨[], some (.ok n)⟩)
    | some p, n =>
      let built := inside p.opener p.inner.reverse
      if n.kind = p.opener.kind then (some ⟨p.opener, p.depth + 1, n :: p.inner⟩, ⟨[], none⟩)
      else if some n.kind = p.opener.kind.closer? then
        if p.depth = 1 then (none, ⟨built.complaints, some built.result⟩)
        else (some ⟨p.opener, p.depth - 1, n :: p.inner⟩, ⟨[], none⟩)
      else if n.kind = .eof then (none, ⟨p.unclosed :: built.complaints, some built.result⟩)
      else (some (p.push n), ⟨[], none⟩)
  finish
    | none => ⟨[], none⟩
    | some p =>
      let built := inside p.opener p.inner.reverse
      ⟨p.unclosed :: built.complaints, some built.result⟩

/-- The stage that splits nodes into statements. -/
def splitStage : Worker Complaint Fault (List Node) Node Statement where
  start := []
  take current n :=
    if isSeparator n then ([], ⟨[], if current.isEmpty then none else some (.ok current.reverse)⟩)
    else (n :: current, ⟨[], none⟩)
  finish current := ⟨[], if current.isEmpty then none else some (.ok current.reverse)⟩

/-- Whether a reduction gets stuck at a statement: the last one does, where it has to copy what goes too deep. -/
def sticks (limits : Limits) (r : Statement.Reduction) (s : Statement) : Bool :=
  r = .compounds && s.copiesTooDeep limits.nodes

/-- The stage of a reduction. -/
def reductionStage (limits : Limits) (source : Text) (r : Statement.Reduction) :
    Worker Complaint Fault Unit Statement Statement :=
  .each fun s => ⟨[], some (if sticks limits r s then .error (tooDeep source) else .ok (r.apply s))⟩

/-- What becomes of a reduced statement: its tree, or a complaint, if it does not go too deep to be written. -/
def checked (limits : Limits) (source : Text) (s : Statement) : Batch Complaint Fault Node :=
  if s.writesTooDeep limits.nodes then ⟨[], some (.error (tooDeep source))⟩
  else match s.check with
    | .ok n => ⟨[], some (.ok n)⟩
    | .error c => ⟨[c], none⟩

/-- The stage that checks reduced statements. -/
def checkStage (limits : Limits) (source : Text) : Worker Complaint Fault Unit Statement Node :=
  .each (checked limits source)

/-- The stages of building, one behind the other, before what they are given. -/
def line (limits : Limits) (source : Text) (inside : Node → List Node → Built) (queue : List (Except Fault Node)) :
    Line Complaint Fault Node :=
  (Statement.Reduction.all.foldl (fun c r => c.andThen (reductionStage limits source r))
    (((Line.given queue).andThen (bracketStage inside)).andThen splitStage)).andThen (checkStage limits source)

theorem Built.events_eq (b : Built) : b.events = Batch.events ⟨b.complaints, some b.result⟩ := by
  rw [Built.events, Batch.events]
  cases b.result <;> rfl

/-- Grouping takes one event after the other as its stage does. -/
theorem bracketStage_run (pending : Option Pending) (es : Events Node) :
    (bracketStage inside).run pending es = group (fun n ns => (inside n ns).events) pending es := by
  have hunclosed : ∀ (p : Pending) (b : Built),
      Batch.events ⟨p.unclosed :: b.complaints, some b.result⟩ = .report p.unclosed :: b.events := by
    intro p b
    rw [Built.events_eq]
    rfl
  induction pending, es using group_induct (fun n ns => (inside n ns).events) with
  | nil => rfl
  | unclosed p => exact hunclosed p _
  | halt => rfl
  | report pending r rest ih => exact congrArg _ ih
  | opening n rest hn ih =>
    rw [Worker.run_item (if_pos hn)]
    exact ih
  | outside n rest hn ih =>
    rw [Worker.run_item (if_neg hn), ih]
    rfl
  | deeper p n rest hn ih =>
    rw [Worker.run_item (if_pos hn)]
    exact ih
  | closing p n rest hn hclose hone ih =>
    rw [Built.events_eq, ← ih]
    exact Worker.run_item ((if_neg hn).trans ((if_pos hclose).trans (if_pos hone))) rest
  | shallower p n rest hn hclose hone ih =>
    rw [Worker.run_item ((if_neg hn).trans ((if_pos hclose).trans (if_neg hone)))]
    exact ih
  | ending p n rest hn hclose heof ih =>
    rw [← hunclosed, ← ih]
    exact Worker.run_item ((if_neg hn).trans ((if_neg hclose).trans (if_pos heof))) rest
  | inside p n rest hn hclose heof ih =>
    rw [Worker.run_item ((if_neg hn).trans ((if_neg hclose).trans (if_neg heof)))]
    exact ih

theorem splitStage_run (current : List Node) (es : Events Node) : splitStage.run current es = split current es := by
  have hflush : ∀ current : List Node,
      Batch.events ⟨[], if current.isEmpty then none else some (.ok current.reverse)⟩ = flush current := by
    intro current
    unfold flush
    split <;> rfl
  induction current, es using split_induct with
  | nil current => exact hflush current
  | halt => rfl
  | report current r rest ih => exact congrArg _ ih
  | separator current n rest hn ih =>
    rw [Worker.run_item (if_pos hn), hflush, Event.chain_eq_append (halt?_flush current), ih]
  | node current n rest hn ih =>
    rw [Worker.run_item (if_neg hn)]
    exact ih

/-! ## How the stages fail -/

/-- The fault of what goes too deep. -/
def IsTooDeep (e : Fault) : Prop := ∃ source, e = tooDeep source

theorem build_isTooDeep {depth : Nat} {opener : Node} {inner : List Node} {e : Fault}
    (h : (build limits depth opener inner).result = .error e) : IsTooDeep e :=
  build_halts (T := fun _ => True) (fun n _ => ⟨n.pos.source, rfl⟩) depth trivial (fun _ _ => trivial) h

theorem bracketStage_failsOnly (h : ∀ o ns e, (inside o ns).result = .error e → IsTooDeep e) :
    (bracketStage inside).FailsOnly IsTooDeep := by
  intro pending n e he
  cases pending with
  | none =>
    simp only [bracketStage] at he
    split_ifs at he
    simp at he
  | some p =>
    simp only [bracketStage] at he
    split_ifs at he
    · exact h _ _ e (Option.some.inj he)
    · exact h _ _ e (Option.some.inj he)

theorem splitStage_failsOnly : splitStage.FailsOnly IsTooDeep := by
  intro current n e he
  simp only [splitStage] at he
  split_ifs at he
  simp at he

theorem reductionStage_failsOnly (limits : Limits) (source : Text) (r : Statement.Reduction) :
    (reductionStage limits source r).FailsOnly IsTooDeep := by
  intro _ s e he
  simp only [reductionStage, Worker.each] at he
  split_ifs at he
  · exact ⟨source, (Except.error.inj (Option.some.inj he)).symm⟩
  · simp at he

theorem checkStage_failsOnly (limits : Limits) (source : Text) : (checkStage limits source).FailsOnly IsTooDeep := by
  intro _ s e he
  simp only [checkStage, Worker.each, checked] at he
  split_ifs at he
  · exact ⟨source, (Except.error.inj (Option.some.inj he)).symm⟩
  · split at he <;> simp at he

/-! ## Taking one item at a time -/

/-- What becomes of one statement in some reductions and the check. -/
def finishing (limits : Limits) (source : Text) : List Statement.Reduction → Statement → Events Node
  | [], s => (checked limits source s).events
  | r :: rs, s => if sticks limits r s then [.halt (tooDeep source)] else finishing limits source rs (r.apply s)

/-- All but the last reduction go on to the next one. -/
theorem finishing_append (rs : List Statement.Reduction) (h : .compounds ∉ rs) (more : List Statement.Reduction)
    (s : Statement) :
    finishing limits source (rs ++ more) s = finishing limits source more (rs.foldl (fun s r => r.apply s) s) := by
  induction rs generalizing s with
  | nil => rfl
  | cons r rs ih =>
    obtain ⟨hr, hrs⟩ := List.ne_and_not_mem_of_not_mem_cons h
    rw [List.cons_append, finishing, ih hrs, if_neg (by simp [sticks, hr.symm])]
    rfl

theorem finishing_chain_nil (rs : List Statement.Reduction) (s : Statement) :
    Event.chain (finishing limits source rs s) [] = finishing limits source rs s := by
  induction rs generalizing s with
  | nil => exact Batch.chain_nil _
  | cons r rs ih =>
    rw [finishing]
    split
    · rfl
    · exact ih _

/-- All reductions and the check settle a statement. -/
theorem finishing_all : finishing limits source Statement.Reduction.all = settle limits source := by
  funext s
  have hlast : finishing limits source Statement.Reduction.all s = finishing limits source [.compounds] s.fold :=
    finishing_append Statement.Reduction.all.dropLast (by decide) [.compounds] s
  have hreduce : Statement.Reduction.compounds.apply s.fold = s.reduce := rfl
  rw [hlast, settle, Statement.exhausts, finishing, finishing, hreduce, sticks, checked]
  cases s.fold.copiesTooDeep limits.nodes with
  | true => rfl
  | false =>
    cases s.reduce.writesTooDeep limits.nodes with
    | true => rfl
    | false => cases s.reduce.check <;> rfl

/-- The reductions and the check, one item at a time: each statement is settled before the next one is taken. -/
theorem lazily_reductions (limits : Limits) (source : Text) {c : Line Complaint Fault Statement}
    {es : Events Statement} (hc : c.Lazily IsTooDeep es) (rs : List Statement.Reduction) :
    ((rs.foldl (fun c r => c.andThen (reductionStage limits source r)) c).andThen (checkStage limits source)).Lazily
      IsTooDeep (Event.each (finishing limits source rs) es) := by
  induction rs generalizing c es with
  | nil =>
    have hcheck := hc.andThen (checkStage_failsOnly limits source)
    rwa [checkStage, Worker.run_each] at hcheck
  | cons r rs ih =>
    have hfirst := hc.andThen (reductionStage_failsOnly limits source r)
    rw [reductionStage, Worker.run_each] at hfirst
    have hrest := ih hfirst
    have hone : ∀ s, Event.each (finishing limits source rs)
        (Batch.events ⟨[], some (if sticks limits r s then .error (tooDeep source) else .ok (r.apply s))⟩) =
          finishing limits source (r :: rs) s := by
      intro s
      rw [finishing]
      split
      · rfl
      · exact finishing_chain_nil rs _
    simp only [Event.each_each, hone] at hrest
    exact hrest

/-- The events of the parse are those of the line that takes one item at a time. -/
theorem lazily_line (limits : Limits) (source : Text) (inside : Node → List Node → Built)
    (queue : List (Except Fault Node)) :
    (line limits source inside queue).Lazily IsTooDeep
      (statements limits source (group (fun n ns => (inside n ns).events) none (queue.map .ofResult))) := by
  have hgroup := Line.lazily_given (F := IsTooDeep) (bracketStage inside) none queue
  rw [bracketStage_run] at hgroup
  have hsplit := Line.Lazily.andThen hgroup splitStage_failsOnly
  rw [splitStage_run] at hsplit
  have hsettle := lazily_reductions limits source hsplit Statement.Reduction.all
  rwa [finishing_all] at hsettle

/-! ## Any order of work -/

/-- A building that comes to the same as a full one: its complaints are among the complaints there, and they are all
of them but for the order, if nothing goes too deep. -/
def Built.Agrees (b full : Built) : Prop := Accord IsTooDeep (b.complaints, [b.result]) (full.complaints, [full.result])

namespace Built.Agrees

variable {b full : Built}

theorem intro (hresult : b.result = full.result) (hlog : b.complaints.Subperm full.complaints)
    (hall : (∀ e, b.result = .error e → ¬ IsTooDeep e) → b.complaints.Perm full.complaints) : b.Agrees full :=
  ⟨congrArg (fun r => [r]) hresult, hlog, fun h => hall fun e he => h e (List.mem_singleton.2 he.symm)⟩

theorem result (h : b.Agrees full) : b.result = full.result := List.singleton_inj.1 h.results

/-- The same complaint first in both. -/
theorem report (h : b.Agrees full) (c : Complaint) :
    Accord IsTooDeep (c :: b.complaints, [b.result]) (c :: full.complaints, [full.result]) := by
  have hfirst : Accord IsTooDeep ([c], ([] : List (Except Fault Node))) ([c], []) := .refl _ _
  exact hfirst.append h

end Built.Agrees

theorem bracketStage_agrees (h : ∀ o ns, (inside o ns).Agrees (inside' o ns)) :
    (bracketStage inside).Agrees IsTooDeep (bracketStage inside') := by
  have htake : ∀ (pending : Option Pending) (n : Node),
      ((bracketStage inside).take pending n).1 = ((bracketStage inside').take pending n).1 ∧
        Accord IsTooDeep ((bracketStage inside).take pending n).2.yield
          ((bracketStage inside').take pending n).2.yield := by
    intro pending n
    cases pending with
    | none => exact ⟨rfl, .refl _ _⟩
    | some p =>
      have hp := h p.opener p.inner.reverse
      simp only [bracketStage]
      split_ifs with hn hclose hone heof
      · exact ⟨rfl, .refl _ _⟩
      · exact ⟨rfl, hp⟩
      · exact ⟨rfl, .refl _ _⟩
      · exact ⟨rfl, hp.report p.unclosed⟩
      · exact ⟨rfl, .refl _ _⟩
  refine ⟨fun s n => (htake s n).1, fun s n => (htake s n).2, fun pending => ?_⟩
  cases pending with
  | none => exact .refl _ _
  | some p => exact (h p.opener p.inner.reverse).report p.unclosed

/-- What is inside brackets has a say in the line by its results and its complaints only. -/
theorem line_agrees (limits : Limits) (source : Text) (h : ∀ o ns, (inside o ns).Agrees (inside' o ns))
    (hinside : ∀ o ns e, (inside o ns).result = .error e → IsTooDeep e) {queue : List (Except Fault Node)}
    (hqueue : EndsWithFailure queue) :
    (line limits source inside queue).Agrees IsTooDeep (line limits source inside' queue) := by
  have hgiven : (Line.given queue : Line Complaint Fault Node).Agrees IsTooDeep (.given queue) := .refl _ _
  have hreductions : ∀ (rs : List Statement.Reduction) {c c' : Line Complaint Fault Statement},
      c.Agrees IsTooDeep c' → EndsWithFailure c.drained.2 →
        (rs.foldl (fun c r => c.andThen (reductionStage limits source r)) c).Agrees IsTooDeep
            (rs.foldl (fun c r => c.andThen (reductionStage limits source r)) c') ∧
          EndsWithFailure (rs.foldl (fun c r => c.andThen (reductionStage limits source r)) c).drained.2 := by
    intro rs
    induction rs with
    | nil => exact fun h hends => ⟨h, hends⟩
    | cons r rs ih =>
      intro c c' h hends
      have hfirst := h.andThen (.refl _ _) rfl (reductionStage_failsOnly limits source r) hends
      exact ih hfirst (Line.andThen_endsWithFailure ..)
  have hgroup := hgiven.andThen (bracketStage_agrees h) rfl (bracketStage_failsOnly hinside) hqueue
  have hsplit := hgroup.andThen (.refl _ splitStage) rfl splitStage_failsOnly (Line.andThen_endsWithFailure ..)
  obtain ⟨hreduced, hends⟩ := hreductions Statement.Reduction.all hsplit (Line.andThen_endsWithFailure ..)
  unfold line
  exact hreduced.andThen (.refl _ _) rfl (checkStage_failsOnly limits source) hends

/-- The group of an opening bracket, built in some order of work: the stages are run until all is done, or until what
comes out at the end is that something goes too deep. -/
def Works (limits : Limits) (source : Text) (inside : Node → List Node → Built) (opener : Node)
    (queue : List (Except Fault Node)) (b : Built) : Prop :=
  ∃ es c, (line limits source inside queue).Runs es c ∧ c.Gives none c ∧
    (c.Over ∨ ∃ e, IsTooDeep e ∧ Event.halt? es = some e) ∧ b = close opener es

/-- The group of an opening bracket, built one stage after the other. -/
def buildLine (limits : Limits) (source : Text) (inside : Node → List Node → Built) (opener : Node)
    (queue : List (Except Fault Node)) : Built :=
  close opener (line limits source inside queue).staged

/-- What comes of events hangs on what they hand on, and so it is with the group around them. -/
theorem close_result_congr {opener : Node} {es es' : Events Node} (h : Event.results es = Event.results es') :
    (close opener es).result = (close opener es').result := by
  rw [close, close, Event.outcome_congr h]

theorem Works.agrees {opener : Node} {queue : List (Except Fault Node)} {b : Built}
    (h : ∀ o ns, (inside o ns).Agrees (inside' o ns))
    (hinside : ∀ o ns e, (inside o ns).result = .error e → IsTooDeep e) (hqueue : EndsWithFailure queue)
    (hb : Works limits source inside opener queue b) : b.Agrees (buildLine limits source inside' opener queue) := by
  obtain ⟨es, c, hruns, hgives, hdone, rfl⟩ := hb
  have hline := line_agrees limits source h hinside hqueue
  have hresults := hruns.results_eq hgives
  have hsame : Event.results es = Event.results (line limits source inside' queue).staged := by
    rw [hresults, hline.results, Line.staged, Event.results_append, Event.results_map_report,
      Event.results_map_ofResult, List.nil_append]
  have hlog : Event.reports (line limits source inside' queue).staged =
      (line limits source inside' queue).drained.1 := by
    rw [Line.staged, Event.reports_append, Event.reports_map_report, Event.reports_map_ofResult, List.append_nil]
  have hresult : (close opener es).result = (buildLine limits source inside' opener queue).result := by
    rw [buildLine, close_result_congr hsame]
  have hcomplaints : (buildLine limits source inside' opener queue).complaints =
      (line limits source inside' queue).drained.1 := by rw [buildLine, close, hlog]
  refine .intro hresult ?_ fun hclear => ?_
  · rw [hcomplaints]
    exact hruns.log_subperm.trans hline.log
  · have hnone : ∀ e, Event.halt? es = some e → ¬ IsTooDeep e := fun e he => hclear e (close_error he)
    have hover : c.Over := by
      refine hdone.resolve_right ?_
      rintro ⟨e, hdeep, he⟩
      exact hnone e he hdeep
    have hends : EndsWithFailure (Event.results es) := by
      rw [hresults]
      exact Line.andThen_endsWithFailure ..
    have hdrained : Clear IsTooDeep (line limits source inside queue).drained.2 := by
      rw [← hresults]
      exact clear_of_halt? hends hnone
    rw [hcomplaints]
    exact (hruns.log_perm hover).trans (hline.all hdrained)

/-- What the group of an opening bracket may be built into, with brackets down to `depth` more levels inside it: at
every level, and in every group, the stages do their work in some order. -/
def Assembled (limits : Limits) : (depth : Nat) → Node → List Node → Built → Prop
  | 0, opener, _, b => b = ⟨[], .error (tooDeep opener.pos.source)⟩
  | depth + 1, opener, inner, b =>
    ∃ inside, (∀ o ns, Assembled limits depth o ns (inside o ns)) ∧
      Works limits opener.pos.source inside opener (inner.map .ok) b

/-- The group of an opening bracket, built one stage after the other, as are the groups inside it. -/
def buildStaged (limits : Limits) : (depth : Nat) → Node → List Node → Built
  | 0, opener, _ => ⟨[], .error (tooDeep opener.pos.source)⟩
  | depth + 1, opener, inner =>
    buildLine limits opener.pos.source (buildStaged limits depth) opener (inner.map .ok)

theorem endsWithFailure_map_ok (inner : List Node) :
    EndsWithFailure (inner.map (Except.ok : Node → Except Fault Node)) := by
  induction inner with
  | nil => exact .nil
  | cons n inner ih => exact .ok ih

/-- Taking one item at a time is an order of work. -/
theorem build_assembled : ∀ (depth : Nat) (opener : Node) (inner : List Node),
    Assembled limits depth opener inner (build limits depth opener inner)
  | 0, _, _ => rfl
  | depth + 1, opener, inner => by
    obtain ⟨c, hdriven, hgives, hdone⟩ := lazily_line limits opener.pos.source (build limits depth)
      (inner.map .ok)
    refine ⟨build limits depth, build_assembled depth, _, c, hdriven.runs, hgives, hdone, ?_⟩
    rw [build, List.map_map]
    rfl

/-- In whatever order the stages do their work, what comes of it agrees with what comes of one after the other. -/
theorem Assembled.agrees : ∀ {depth : Nat} {opener : Node} {inner : List Node} {b : Built},
    Assembled limits depth opener inner b → b.Agrees (buildStaged limits depth opener inner)
  | 0, _, _, _, hb => by
    rw [hb]
    exact .refl _ _
  | _ + 1, _, _, _, ⟨_, hinside, hb⟩ => by
    refine hb.agrees (fun o ns => (hinside o ns).agrees) (fun o ns e he => ?_) (endsWithFailure_map_ok _)
    have hsame := (hinside o ns).agrees.result.trans (build_assembled _ o ns).agrees.result.symm
    exact build_isTooDeep (hsame.symm.trans he)

theorem Assembled.isTooDeep {depth : Nat} {opener : Node} {inner : List Node} {b : Built} {e : Fault}
    (h : Assembled limits depth opener inner b) (he : b.result = .error e) : IsTooDeep e :=
  build_isTooDeep (((build_assembled depth opener inner).agrees.result.trans h.agrees.result.symm).trans he)

end Tree

/-- A source, parsed in some order of work. -/
def Scheduled (limits : Limits) (source text : Text) (b : Tree.Built) : Prop :=
  ∃ inside, (∀ o ns, Tree.Assembled limits limits.brackets o ns (inside o ns)) ∧
    Tree.Works limits source inside (Tree.root source) (Event.results (Tree.nodes (scan source text))) b

/-- A source, parsed one stage after the other, at every level of brackets. -/
def parseStaged (limits : Limits) (source text : Text) : Tree.Built :=
  Tree.buildLine limits source (Tree.buildStaged limits limits.brackets) (Tree.root source)
    (Event.results (Tree.nodes (scan source text)))

namespace Tree

theorem nodes_endsWithFailure (s : Scan) : EndsWithFailure (Event.results (nodes s)) := by
  have hitems : ∀ (ns : List Node) (es : Events Node), EndsWithFailure (Event.results es) →
      EndsWithFailure (Event.results (ns.map .item ++ es)) := by
    intro ns es h
    induction ns with
    | nil => exact h
    | cons n ns ih => exact .ok ih
  cases h : s.ending with
  | finished pos =>
    rw [nodes_finished h]
    exact hitems _ _ (.ok .nil)
  | failed cause pos =>
    rw [nodes_failed h]
    exact hitems _ _ (.error _)

end Tree

theorem Scheduled.agrees {limits : Limits} {source text : Text} {b : Tree.Built} (h : Scheduled limits source text b) :
    b.Agrees (parseStaged limits source text) := by
  obtain ⟨inside, hinside, hb⟩ := h
  exact hb.agrees (fun o ns => (hinside o ns).agrees) (fun o ns e he => (hinside o ns).isTooDeep he)
    (Tree.nodes_endsWithFailure _)

end Kettle
