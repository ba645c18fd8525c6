/-
Stages at work on their own. A line of stages hands on items and failures through queues; whichever stage has
something to do may do it next, and what the stages complain about goes to one common log. Run as it may be, a line
hands on the same, and its log is the same but for the order: that of the stages run one after the other, each to
its end. A bound on the queues would leave out some of the runs, and so it would change nothing. A run that is driven
from the end of the line stops at the first failure; where that is one of the last stage, the log lacks what the stages
before it have not come to.
-/
import Mathlib.Data.List.Perm.Subperm
import Kettle.Proofs.Tree.Append

namespace Kettle

variable {ρ ε σ α β : Type}

/-! ## Results among events -/

namespace Event

/-- What a queue hands over: an item or a failure. -/
def ofResult : Except ε α → Event ρ ε α
  | .ok a => item a
  | .error e => halt e

/-- What is handed on among some events: all but the reports. -/
def results : List (Event ρ ε α) → List (Except ε α)
  | [] => []
  | item a :: rest => .ok a :: results rest
  | report _ :: rest => results rest
  | halt e :: rest => .error e :: results rest

variable {es more : List (Event ρ ε α)}

theorem results_append : results (es ++ more) = results es ++ results more := by
  induction es with
  | nil => rfl
  | cons e es ih => cases e <;> simp [results, ih]

theorem results_map_report (rs : List ρ) : results (rs.map report : List (Event ρ ε α)) = [] := by
  induction rs with
  | nil => rfl
  | cons r rs ih => exact ih

theorem results_map_ofResult (q : List (Except ε α)) :
    results (q.map ofResult : List (Event ρ ε α)) = q := by
  induction q with
  | nil => rfl
  | cons x q ih => cases x <;> exact congrArg _ ih

theorem reports_map_ofResult (q : List (Except ε α)) :
    reports (q.map ofResult : List (Event ρ ε α)) = [] := by
  induction q with
  | nil => rfl
  | cons x q ih => cases x <;> exact ih

theorem halt?_results (es : List (Event ρ ε α)) :
    halt? ((results es).map ofResult : List (Event ρ ε α)) = halt? es := by
  induction es with
  | nil => rfl
  | cons e es ih => cases e <;> simp [results, ofResult, halt?, ih]

theorem items_results (es : List (Event ρ ε α)) :
    items ((results es).map ofResult : List (Event ρ ε α)) = items es := by
  induction es with
  | nil => rfl
  | cons e es ih => cases e <;> simp [results, ofResult, items, ih]

/-- What comes of events hangs on what they hand on. -/
theorem outcome_congr {es es' : List (Event ρ ε α)} (h : results es = results es') : outcome es = outcome es' := by
  have hresults : ∀ es : List (Event ρ ε α), outcome ((results es).map ofResult : List (Event ρ ε α)) = outcome es := by
    intro es
    rw [outcome, outcome, halt?_results, items_results]
  rw [← hresults es, h, hresults es']

end Event

/-! ## Failures among results -/

section

variable {F : ε → Prop} {q q' : List (Except ε α)} {a : α}

/-- No failure of some kind is among results. -/
def Clear (F : ε → Prop) (q : List (Except ε α)) : Prop := ∀ e, .error e ∈ q → ¬ F e

theorem clear_nil : Clear F ([] : List (Except ε α)) := by simp [Clear]

theorem clear_cons_ok : Clear F (.ok a :: q) ↔ Clear F q := by simp [Clear]

theorem clear_append : Clear F (q ++ q') ↔ Clear F q ∧ Clear F q' := by simp [Clear, or_imp, forall_and]

/-- Nothing comes behind a failure. -/
inductive EndsWithFailure : List (Except ε α) → Prop where
  | nil : EndsWithFailure []
  | ok {a : α} {q : List (Except ε α)} (h : EndsWithFailure q) : EndsWithFailure (.ok a :: q)
  | error (e : ε) : EndsWithFailure [.error e]

theorem endsWithFailure_toList (x : Option (Except ε α)) : EndsWithFailure x.toList := by
  match x with
  | none => exact .nil
  | some (.ok a) => exact .ok .nil
  | some (.error e) => exact .error e

theorem clear_of_halt? {es : List (Event ρ ε α)} (h : EndsWithFailure (Event.results es))
    (hhalt : ∀ e, Event.halt? es = some e → ¬ F e) : Clear F (Event.results es) := by
  induction es with
  | nil => exact clear_nil
  | cons event es ih =>
    cases event with
    | item a =>
      cases h with
      | ok h => exact clear_cons_ok.2 (ih h hhalt)
    | report r => exact ih h hhalt
    | halt e =>
      have hend : Event.results es = [] := by
        generalize hq : Event.results (.halt e :: es) = q at h
        cases h <;> simp_all [Event.results]
      simpa [Event.results, hend, Clear] using hhalt e rfl

/-- A log and results that accord with those of a full run: the results are the same, the log is part of that one but
for its order, and it is all of it if no failure of some kind is among the results. -/
structure Accord (F : ε → Prop) (p full : List ρ × List (Except ε α)) : Prop where
  results : p.2 = full.2
  log : p.1.Subperm full.1
  all : Clear F p.2 → p.1.Perm full.1

theorem Accord.refl (F : ε → Prop) (p : List ρ × List (Except ε α)) : Accord F p p := ⟨rfl, .refl _, fun _ => .refl _⟩

theorem append_subperm {l l' k k' : List ρ} (h : l.Subperm l') (h' : k.Subperm k') :
    (l ++ k).Subperm (l' ++ k') :=
  ((List.subperm_append_right k).2 h).trans ((List.subperm_append_left l').2 h')

theorem Accord.append {p full r rest : List ρ × List (Except ε α)} (h : Accord F p full) (h' : Accord F r rest) :
    Accord F (p.1 ++ r.1, p.2 ++ r.2) (full.1 ++ rest.1, full.2 ++ rest.2) := by
  refine ⟨by rw [h.results, h'.results], append_subperm h.log h'.log, fun hclear => ?_⟩
  obtain ⟨hp, hr⟩ := clear_append.1 hclear
  exact (h.all hp).append (h'.all hr)

end

/-! ## Workers -/

/-- What a stage does at one go: it may complain, and then it may hand on an item or fail. -/
structure Batch (ρ ε β : Type) where
  reports : List ρ
  output : Option (Except ε β)

/-- The events of one go. -/
def Batch.events (b : Batch ρ ε β) : List (Event ρ ε β) :=
  b.reports.map .report ++ b.output.toList.map .ofResult

/-- What comes of one go: the complaints, and what is handed on. -/
def Batch.yield (b : Batch ρ ε β) : List ρ × List (Except ε β) := (b.reports, b.output.toList)

theorem Accord.output {F : ε → Prop} {b b' : Batch ρ ε β} (h : Accord F b.yield b'.yield) : b.output = b'.output := by
  have hresults : b.output.toList = b'.output.toList := h.results
  revert hresults
  cases b.output <;> cases b'.output <;> simp

/-- Whether a stage fails at one go. -/
def Batch.fails (b : Batch ρ ε β) : Bool :=
  match b.output with
  | some (.error _) => true
  | _ => false

theorem Batch.fails_iff {b : Batch ρ ε β} : b.fails = true ↔ ∃ e, b.output = some (.error e) := by
  rw [fails]
  cases b.output with
  | none => simp
  | some x => cases x <;> simp

theorem Batch.halt?_events {b : Batch ρ ε β} {e : ε} (h : b.output = some (.error e)) :
    Event.halt? b.events = some e := by
  rw [events, Event.halt?_append, Event.halt?_map_report, h]
  rfl

theorem Batch.halt?_events_eq_none {b : Batch ρ ε β} (h : b.fails = false) : Event.halt? b.events = none := by
  rw [fails] at h
  rw [events, Event.halt?_append, Event.halt?_map_report]
  split at h
  · cases h
  · rename_i houtput
    cases hb : b.output with
    | none => rfl
    | some x =>
      cases x with
      | ok a => rfl
      | error e => exact absurd hb (houtput e)

theorem Batch.chain_events (b : Batch ρ ε β) (es : List (Event ρ ε β)) :
    Event.chain b.events es = if b.fails then b.events else b.events ++ es := by
  rw [events, fails, Event.chain_map_report]
  cases b.output with
  | none => simp [Event.chain]
  | some x => cases x <;> simp [Event.chain, Event.ofResult]

theorem Batch.chain_nil (b : Batch ρ ε β) : Event.chain b.events [] = b.events := by
  rw [chain_events]
  split <;> simp

/-- A stage at work: its state at the start, what it does with an item, and what it does when no more items come. -/
structure Worker (ρ ε σ α β : Type) where
  start : σ
  take : σ → α → σ × Batch ρ ε β
  finish : σ → Batch ρ ε β

namespace Worker

variable (w : Worker ρ ε σ α β)

/-- What a stage does with what comes next, if anything comes. After a failure, its own or one that it hands on, and
after its end it is over. -/
def react (s : σ) : Option (Except ε α) → Option σ × Batch ρ ε β
  | none => (none, w.finish s)
  | some (.error e) => (none, ⟨[], some (.error e)⟩)
  | some (.ok a) => (if (w.take s a).2.fails then none else some (w.take s a).1, (w.take s a).2)

/-- A stage that works off all that comes: what it complains about, and what it hands on. -/
def drain : Option σ → List (Except ε α) → List ρ × List (Except ε β)
  | none, _ => ([], [])
  | some s, [] => ((w.finish s).reports, (w.finish s).output.toList)
  | some s, x :: rest =>
    let after := drain (w.react s (some x)).1 rest
    ((w.react s (some x)).2.reports ++ after.1, (w.react s (some x)).2.output.toList ++ after.2)

/-- A stage that works on events as they come, its own reports among those that it hands on. -/
def run (s : σ) : List (Event ρ ε α) → List (Event ρ ε β)
  | [] => (w.finish s).events
  | .halt e :: _ => [.halt e]
  | .report r :: rest => .report r :: run s rest
  | .item a :: rest => Event.chain (w.take s a).2.events (run (w.take s a).1 rest)

/-- As long as items come, a stage fails of itself in such ways only. -/
def FailsOnly (F : ε → Prop) : Prop := ∀ s a e, (w.take s a).2.output = some (.error e) → F e

theorem run_reports (s : σ) (rs : List ρ) (es : List (Event ρ ε α)) :
    w.run s (rs.map .report ++ es) = rs.map .report ++ w.run s es := by
  induction rs with
  | nil => rfl
  | cons r rs ih => exact congrArg _ ih

theorem run_item {w : Worker ρ ε σ α β} {s s' : σ} {a : α} {b : Batch ρ ε β} (h : w.take s a = (s', b))
    (es : List (Event ρ ε α)) : w.run s (.item a :: es) = Event.chain b.events (w.run s' es) := by
  rw [run, h]

theorem react_of_fails {w : Worker ρ ε σ α β} {s : σ} {x : Option (Except ε α)} (h : (w.react s x).2.fails = true) :
    (w.react s x).1 = none := by
  match x with
  | none => rfl
  | some (.error e) => rfl
  | some (.ok a) => exact if_pos h

theorem react_of_not_fails {w : Worker ρ ε σ α β} {s : σ} {a : α} (h : (w.react s (some (.ok a))).2.fails = false) :
    (w.react s (some (.ok a))).1 = some (w.take s a).1 :=
  if_neg (Bool.eq_false_iff.1 h)

variable {w} {w' : Worker ρ ε σ α β} {F : ε → Prop} {q : List (Except ε α)}

/-- What a stage hands on ends with its failure, or with that of a stage before it. -/
theorem drain_endsWithFailure (w : Worker ρ ε σ α β) (state : Option σ) (q : List (Except ε α)) :
    EndsWithFailure (w.drain state q).2 := by
  induction q generalizing state with
  | nil =>
    cases state with
    | none => exact .nil
    | some s => exact endsWithFailure_toList _
  | cons x q ih =>
    cases state with
    | none => exact .nil
    | some s =>
      have hrest := ih (w.react s x).1
      have hover := react_of_fails (w := w) (s := s) (x := some x)
      simp only [Worker.drain]
      cases houtput : (w.react s x).2.output with
      | none => exact hrest
      | some y =>
        cases y with
        | ok b => exact .ok hrest
        | error e =>
          rw [hover (Batch.fails_iff.2 ⟨e, houtput⟩)]
          cases q <;> exact .error e

/-- Where a stage fails in such ways only as are not among what it hands on, they are not among what comes to it. -/
theorem clear_of_drain (hw : w.FailsOnly F) (hq : EndsWithFailure q) {s : σ} (h : Clear F (w.drain (some s) q).2) :
    Clear F q := by
  induction q generalizing s with
  | nil => exact clear_nil
  | cons x q ih =>
    cases hq with
    | error e => simpa [Worker.drain, Worker.react, Clear] using h
    | @ok a _ hq =>
      obtain ⟨hfirst, hrest⟩ := clear_append.1 h
      have hfails : (w.react s (some (.ok a))).2.fails = false := by
        refine Bool.eq_false_iff.2 fun hfails => ?_
        obtain ⟨e, he⟩ := Batch.fails_iff.1 hfails
        exact hfirst e (by simp [he]) (hw s a e he)
      rw [react_of_not_fails hfails] at hrest
      exact clear_cons_ok.2 (ih hq hrest)

/-- Stages that go through the same states, and accord in all that comes of them. -/
structure Agrees (F : ε → Prop) (w w' : Worker ρ ε σ α β) : Prop where
  state : ∀ s a, (w.take s a).1 = (w'.take s a).1
  take : ∀ s a, Accord F (w.take s a).2.yield (w'.take s a).2.yield
  finish : ∀ s, Accord F (w.finish s).yield (w'.finish s).yield

theorem Agrees.refl (F : ε → Prop) (w : Worker ρ ε σ α β) : w.Agrees F w :=
  ⟨fun _ _ => rfl, fun _ _ => .refl _ _, fun _ => .refl _ _⟩

theorem Agrees.react (h : w.Agrees F w') (s : σ) (x : Option (Except ε α)) :
    (w.react s x).1 = (w'.react s x).1 ∧ Accord F (w.react s x).2.yield (w'.react s x).2.yield := by
  match x with
  | none => exact ⟨rfl, h.finish s⟩
  | some (.error e) => exact ⟨rfl, .refl _ _⟩
  | some (.ok a) =>
    have hfails : (w.take s a).2.fails = (w'.take s a).2.fails := by
      rw [Batch.fails, Batch.fails, (h.take s a).output]
    exact ⟨by rw [Worker.react, Worker.react, hfails, h.state s a], h.take s a⟩

theorem Agrees.drain (h : w.Agrees F w') (state : Option σ) (q : List (Except ε α)) :
    Accord F (w.drain state q) (w'.drain state q) := by
  induction q generalizing state with
  | nil =>
    cases state with
    | none => exact .refl _ _
    | some s => exact h.finish s
  | cons x q ih =>
    cases state with
    | none => exact .refl _ _
    | some s =>
      obtain ⟨hstate, hyield⟩ := h.react s (some x)
      have hrest := ih (w.react s (some x)).1
      simp only [Worker.drain]
      rw [← hstate]
      exact hyield.append hrest

end Worker

/-! ## Lines -/

/-- Stages one behind the other, in the midst of their work: each with its state, unless it is over, and with what it
has handed on and the next stage has not taken yet. -/
inductive Line (ρ ε : Type) : Type → Type 1 where
  | given {α : Type} (queue : List (Except ε α)) : Line ρ ε α
  | stage {σ α β : Type} (w : Worker ρ ε σ α β) (state : Option σ) (ready : List (Except ε β)) (before : Line ρ ε α) :
      Line ρ ε β

namespace Line

variable {c c' c'' : Line ρ ε α} {w : Worker ρ ε σ α β} {s : σ} {state : Option σ} {ready : List (Except ε β)}
  {x : Option (Except ε α)} {rs : List ρ}

/-- A line with one more stage, which has not begun. -/
def andThen (c : Line ρ ε α) (w : Worker ρ ε σ α β) : Line ρ ε β := .stage w (some w.start) [] c

/-- What a line has to give to the next stage: the first in its queue, or the news that no more will come. -/
inductive Gives : {α : Type} → Line ρ ε α → Option (Except ε α) → Line ρ ε α → Prop where
  | given {α : Type} (x : Except ε α) (queue : List (Except ε α)) : Gives (.given (x :: queue)) (some x) (.given queue)
  | empty {α : Type} : Gives (.given ([] : List (Except ε α))) none (.given [])
  | ready {σ α β : Type} (w : Worker ρ ε σ α β) (state : Option σ) (x : Except ε β) (ready : List (Except ε β))
      (before : Line ρ ε α) : Gives (.stage w state (x :: ready) before) (some x) (.stage w state ready before)
  | over {σ α β : Type} (w : Worker ρ ε σ α β) (before : Line ρ ε α) :
      Gives (.stage w none [] before) none (.stage w none [] before)

/-- One stage of the line takes what the line before it has to give; what it complains about is logged. -/
inductive Step : {α : Type} → Line ρ ε α → List ρ → Line ρ ε α → Prop where
  | work {σ α β : Type} {w : Worker ρ ε σ α β} {s : σ} {ready : List (Except ε β)} {x : Option (Except ε α)}
      {before before' : Line ρ ε α} (h : Gives before x before') :
      Step (.stage w (some s) ready before) (w.react s x).2.reports
        (.stage w (w.react s x).1 (ready ++ (w.react s x).2.output.toList) before')
  | inner {σ α β : Type} {w : Worker ρ ε σ α β} {state : Option σ} {ready : List (Except ε β)} {rs : List ρ}
      {before before' : Line ρ ε α} (h : Step before rs before') :
      Step (.stage w state ready before) rs (.stage w state ready before')

/-- The events of a run of a line, in the order in which they come: what is logged, and what is taken from its end. -/
inductive Runs : Line ρ ε α → List (Event ρ ε α) → Line ρ ε α → Prop where
  | refl (c : Line ρ ε α) : Runs c [] c
  | step {c c' c'' : Line ρ ε α} {rs : List ρ} {es : List (Event ρ ε α)} (h : Step c rs c') (t : Runs c' es c'') :
      Runs c (rs.map .report ++ es) c''
  | give {c c' c'' : Line ρ ε α} {x : Except ε α} {es : List (Event ρ ε α)} (h : Gives c (some x) c')
      (t : Runs c' es c'') : Runs c (.ofResult x :: es) c''

/-- Every stage of the line is over. -/
def Over : {α : Type} → Line ρ ε α → Prop
  | _, given _ => True
  | _, stage _ state _ before => state = none ∧ before.Over

theorem over_given (queue : List (Except ε α)) : (given queue : Line ρ ε α).Over := by
  rw [Over]
  trivial

/-- What is left of a line, one stage after the other: each stage works off all that the stages before it hand on,
once these are over. -/
def drained : {α : Type} → Line ρ ε α → List ρ × List (Except ε α)
  | _, given queue => ([], queue)
  | _, stage w state ready before =>
    (before.drained.1 ++ (w.drain state before.drained.2).1, ready ++ (w.drain state before.drained.2).2)

theorem drained_andThen (c : Line ρ ε α) (w : Worker ρ ε σ α β) : (c.andThen w).drained =
    (c.drained.1 ++ (w.drain (some w.start) c.drained.2).1, (w.drain (some w.start) c.drained.2).2) := rfl

theorem andThen_endsWithFailure (c : Line ρ ε α) (w : Worker ρ ε σ α β) :
    EndsWithFailure (c.andThen w).drained.2 := by
  rw [drained_andThen]
  exact w.drain_endsWithFailure _ _

/-- The events of a line that is run one stage after the other. -/
def staged (c : Line ρ ε α) : List (Event ρ ε α) := c.drained.1.map .report ++ c.drained.2.map .ofResult

theorem Gives.drained (h : Gives c x c') :
    c.drained.1 = c'.drained.1 ∧ c.drained.2 = x.toList ++ c'.drained.2 ∧ (x = none → c'.drained.2 = []) := by
  cases h <;> simp [Line.drained, Worker.drain]

/-- A step changes nothing of what a line will hand on, and it takes from its log what it logs. -/
theorem Step.drained (h : Step c rs c') : c.drained.1.Perm (rs ++ c'.drained.1) ∧ c.drained.2 = c'.drained.2 := by
  induction h with
  | @work σ α β w s ready x before before' h =>
    obtain ⟨hlog, hqueue, hnone⟩ := h.drained
    have hdrain : w.drain (some s) before.drained.2 =
        ((w.react s x).2.reports ++ (w.drain (w.react s x).1 before'.drained.2).1,
          (w.react s x).2.output.toList ++ (w.drain (w.react s x).1 before'.drained.2).2) := by
      rw [hqueue]
      cases x with
      | none => simp [hnone rfl, Worker.drain, Worker.react]
      | some x => rfl
    simp only [Line.drained, hdrain, hlog, List.append_assoc]
    exact ⟨List.perm_append_comm_assoc .., trivial⟩
  | inner _ ih =>
    simp only [Line.drained, ih.2]
    refine ⟨?_, trivial⟩
    rw [← List.append_assoc]
    exact ih.1.append_right _

theorem Over.drained (h : c.Over) : c.drained.1 = [] := by
  induction c with
  | given queue => rfl
  | stage w state ready before ih =>
    obtain ⟨rfl, hbefore⟩ := h
    simp [Line.drained, Worker.drain, ih hbefore]

/-- However a line is run: what it hands on, with what is left to hand on, is what it hands on one stage after the other,
and so it is with the log, but for its order. -/
theorem Runs.drained {es : List (Event ρ ε α)} (h : Runs c es c') :
    c.drained.1.Perm (Event.reports es ++ c'.drained.1) ∧ c.drained.2 = Event.results es ++ c'.drained.2 := by
  induction h with
  | refl c => exact ⟨.refl _, rfl⟩
  | @step c c' c'' rs es h _ ih =>
    rw [Event.reports_append, Event.reports_map_report, Event.results_append, Event.results_map_report, h.drained.2,
      List.append_assoc]
    exact ⟨h.drained.1.trans (ih.1.append_left rs), ih.2⟩
  | @give c c' c'' x es h _ ih =>
    obtain ⟨hlog, hqueue, -⟩ := h.drained
    rw [hlog, hqueue, ih.2]
    cases x <;> exact ⟨ih.1, rfl⟩

/-- A line that has nothing more to give has handed on all that it hands on. -/
theorem Runs.results_eq {es : List (Event ρ ε α)} (h : Runs c es c') (hend : Gives c' none c') :
    Event.results es = c.drained.2 := by
  rw [h.drained.2, hend.drained.2.2 rfl, List.append_nil]

/-- Whatever a run logs, it is among what the line logs one stage after the other. -/
theorem Runs.log_subperm {es : List (Event ρ ε α)} (h : Runs c es c') : (Event.reports es).Subperm c.drained.1 :=
  (List.sublist_append_left ..).subperm.trans h.drained.1.symm.subperm

/-- A line that is run until nothing is left to do has logged all that it logs. -/
theorem Runs.log_perm {es : List (Event ρ ε α)} (h : Runs c es c') (hover : c'.Over) :
    (Event.reports es).Perm c.drained.1 := by
  have hlog := h.drained.1
  rw [hover.drained, List.append_nil] at hlog
  exact hlog.symm

/-- Lines that accord in all that comes of them. -/
def Agrees (F : ε → Prop) (c c' : Line ρ ε α) : Prop := Accord F c.drained c'.drained

theorem Agrees.andThen {F : ε → Prop} {w w' : Worker ρ ε σ α β} (h : c.Agrees F c') (hw : w.Agrees F w')
    (hstart : w.start = w'.start) (hfails : w.FailsOnly F) (hqueue : EndsWithFailure c.drained.2) :
    (c.andThen w).Agrees F (c'.andThen w') := by
  have hdrain := hw.drain (some w.start) c.drained.2
  rw [Agrees, drained_andThen, drained_andThen, ← h.results, ← hstart]
  refine ⟨hdrain.results, append_subperm h.log hdrain.log, fun hclear => ?_⟩
  exact (h.all (Worker.clear_of_drain hfails hqueue hclear)).append (hdrain.all hclear)

/-! ## The run of one stage after the other -/

/-- Steps in which nothing is taken from the end of the line, with their log. -/
inductive Steps : {α : Type} → Line ρ ε α → List ρ → Line ρ ε α → Prop where
  | refl {α : Type} (c : Line ρ ε α) : Steps c [] c
  | step {α : Type} {c c' c'' : Line ρ ε α} {rs rs' : List ρ} (h : Step c rs c') (t : Steps c' rs' c'') :
      Steps c (rs ++ rs') c''

theorem Steps.append {rs' : List ρ} (h : Steps c rs c') (t : Steps c' rs' c'') : Steps c (rs ++ rs') c'' := by
  induction h with
  | refl => exact t
  | step h _ ih =>
    rw [List.append_assoc]
    exact .step h (ih t)

theorem Steps.inner (h : Steps c rs c') : Steps (.stage w state ready c) rs (.stage w state ready c') := by
  induction h with
  | refl => exact .refl _
  | step h _ ih => exact .step (.inner h) ih

theorem Steps.runs {es : List (Event ρ ε α)} (h : Steps c rs c') (t : Runs c' es c'') :
    Runs c (rs.map .report ++ es) c'' := by
  induction h with
  | refl => exact t
  | step h _ ih =>
    rw [List.map_append, List.append_assoc]
    exact .step h (ih t)

/-- What a line has handed on and nobody has taken yet. -/
def waiting : {α : Type} → Line ρ ε α → List (Except ε α)
  | _, given queue => queue
  | _, stage _ _ ready _ => ready

/-- A line that is over gives what waits. -/
theorem Over.gives (h : c.Over) : ∃ c', Gives c c.waiting.head? c' ∧ c'.Over ∧ c'.waiting = c.waiting.tail := by
  cases c with
  | given queue =>
    cases queue with
    | nil => exact ⟨_, .empty, over_given _, rfl⟩
    | cons x queue => exact ⟨_, .given x queue, over_given _, rfl⟩
  | stage w state ready before =>
    obtain ⟨rfl, hbefore⟩ := h
    cases ready with
    | nil => exact ⟨_, .over w before, ⟨rfl, hbefore⟩, rfl⟩
    | cons x ready => exact ⟨_, .ready w none x ready before, ⟨rfl, hbefore⟩, rfl⟩

/-- A run that is driven from the end of the line: the line is asked for results until there are no more or one is a
failure. -/
inductive Driven : {α : Type} → Line ρ ε α → List (Event ρ ε α) → Line ρ ε α → Prop where
  | stop {α : Type} {c : Line ρ ε α} (h : Gives c none c) : Driven c [] c
  | step {α : Type} {c c' c'' : Line ρ ε α} {rs : List ρ} {es : List (Event ρ ε α)} (h : Step c rs c')
      (t : Driven c' es c'') : Driven c (rs.map .report ++ es) c''
  | item {α : Type} {c c' c'' : Line ρ ε α} {a : α} {es : List (Event ρ ε α)} (h : Gives c (some (.ok a)) c')
      (t : Driven c' es c'') : Driven c (.item a :: es) c''
  | halt {α : Type} {c c' : Line ρ ε α} {e : ε} (h : Gives c (some (.error e)) c') : Driven c [.halt e] c'

theorem Driven.runs {es : List (Event ρ ε α)} (h : Driven c es c') : Runs c es c' := by
  induction h with
  | stop => exact .refl _
  | step h _ ih => exact .step h ih
  | item h _ ih => exact .give h ih
  | halt h => exact .give h (.refl _)

/-- A line can be driven so that these events come, and then no more. Nothing is left to do then, or a failure of some
kind came. -/
def Lazily (F : ε → Prop) (c : Line ρ ε α) (es : List (Event ρ ε α)) : Prop :=
  ∃ c', Driven c es c' ∧ Gives c' none c' ∧ (c'.Over ∨ ∃ e, F e ∧ Event.halt? es = some e)

variable {F : ε → Prop}

theorem lazily_over {before : Line ρ ε α} (h : before.Over) : Lazily F (.stage w none [] before) [] :=
  ⟨_, .stop (.over w before), .over w before, .inl ⟨rfl, h⟩⟩

/-- What one stage does at one go, driven from its end: it complains, and what it hands on is taken at once. -/
theorem Lazily.go {before before' : Line ρ ε α} {es : List (Event ρ ε β)} (h : Gives before x before')
    (hfails : ∀ e, (w.react s x).2.output = some (.error e) → before'.Over ∨ F e)
    (hrest : (w.react s x).2.fails = false → Lazily F (.stage w (w.react s x).1 [] before') es) :
    Lazily F (.stage w (some s) [] before) (Event.chain (w.react s x).2.events es) := by
  rw [Batch.chain_events]
  split
  · -- the failure is the last that is taken, and the stage is over
    rename_i hover
    obtain ⟨e, houtput⟩ := Batch.fails_iff.1 hover
    refine ⟨.stage w none [] before', ?_, .over w before', ?_⟩
    · rw [Batch.events, houtput]
      refine .step (.work h) ?_
      rw [Worker.react_of_fails hover, houtput]
      exact .halt (.ready ..)
    · refine (hfails e houtput).imp (fun h => ⟨rfl, h⟩) fun h => ⟨e, h, ?_⟩
      exact Batch.halt?_events houtput
  · rename_i hover
    have hgoes : (w.react s x).2.fails = false := by simpa using hover
    obtain ⟨c, hdriven, hend, hkind⟩ := hrest hgoes
    refine ⟨c, ?_, hend, ?_⟩
    · rw [Batch.events, List.append_assoc]
      refine .step (.work h) ?_
      rw [List.nil_append]
      cases houtput : (w.react s x).2.output with
      | none => exact hdriven
      | some y =>
        cases y with
        | ok b => exact .item (.ready ..) hdriven
        | error e => exact absurd (Batch.fails_iff.2 ⟨e, houtput⟩) hover
    · refine hkind.imp_right fun ⟨e, he, hhalt⟩ => ⟨e, he, ?_⟩
      rw [Event.halt?_append, Batch.halt?_events_eq_none hgoes, hhalt]
      rfl

/-- A stage that comes to the end of what is before it. -/
theorem lazily_end {before : Line ρ ε α} (h : Gives before none before) (hover : before.Over) :
    Lazily F (.stage w (some s) [] before) (w.run s []) := by
  have hgo := Lazily.go (w := w) (s := s) (F := F) h (fun _ _ => .inl hover) fun _ => lazily_over hover
  rwa [Batch.chain_nil] at hgo

/-- A stage that comes to a failure before it. -/
theorem lazily_halt {before before' : Line ρ ε α} {e : ε} (h : Gives before (some (.error e)) before')
    (hkind : before'.Over ∨ F e) (es : List (Event ρ ε α)) :
    Lazily F (.stage w (some s) [] before) (w.run s (.halt e :: es)) := by
  have hfails : ∀ f, (w.react s (some (.error e))).2.output = some (.error f) → before'.Over ∨ F f := by
    rintro f hf
    obtain rfl : e = f := by simpa [Worker.react] using hf
    exact hkind
  have hgo : Lazily F _ (Event.chain _ []) := Lazily.go h hfails fun hgoes => by cases hgoes
  rwa [Batch.chain_nil] at hgo

/-- A stage that reads what is given, one item at a time. -/
theorem lazily_given (w : Worker ρ ε σ α β) (s : σ) (queue : List (Except ε α)) :
    Lazily F (.stage w (some s) [] (.given queue)) (w.run s (queue.map .ofResult)) := by
  induction queue generalizing s with
  | nil => exact lazily_end .empty (over_given [])
  | cons x queue ih =>
    cases x with
    | error e => exact lazily_halt (.given (.error e) queue) (.inl (over_given queue)) _
    | ok a =>
      refine Lazily.go (.given (.ok a) queue) (fun _ _ => .inl (over_given queue)) fun hfails => ?_
      rw [Worker.react_of_not_fails hfails]
      exact ih _

/-- A stage behind a line that is driven: each item goes through it before the next one is asked for. -/
theorem Lazily.andThen {c : Line ρ ε α} {es : List (Event ρ ε α)} (h : Lazily F c es) (hw : w.FailsOnly F) :
    Lazily F (c.andThen w) (w.run w.start es) := by
  obtain ⟨c', hdriven, hend, hkind⟩ := h
  suffices h : ∀ s, Lazily F (.stage w (some s) [] c) (w.run s es) from h w.start
  induction hdriven with
  | stop h =>
    intro s
    refine lazily_end h (hkind.resolve_right ?_)
    rintro ⟨e, -, hhalt⟩
    cases hhalt
  | halt h =>
    refine fun s => lazily_halt h (hkind.imp_right ?_) []
    rintro ⟨e, he, hhalt⟩
    cases hhalt
    exact he
  | @step c c' c'' rs es h _ ih =>
    intro s
    rw [Event.halt?_append, Event.halt?_map_report, Option.none_or] at hkind
    obtain ⟨d, hd, hgives, hdone⟩ := ih hend hkind s
    rw [Worker.run_reports]
    refine ⟨d, .step (.inner h) hd, hgives, ?_⟩
    rwa [Event.halt?_append, Event.halt?_map_report, Option.none_or]
  | @item c c' c'' a es h _ ih =>
    intro s
    refine Lazily.go h (fun e he => .inr (hw s a e he)) fun hfails => ?_
    rw [Worker.react_of_not_fails hfails]
    exact ih hend hkind _

end Line

end Kettle
