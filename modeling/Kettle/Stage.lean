/-
Stages. What passes from one stage of work to the next is a list of events: items, reports, which
later stages only hand on, and a halt, after which nothing follows. A stage is a function from events
to events, so stages compose as functions do.
-/

namespace Kettle

/-- Something a stage hands to the next one. -/
inductive Event (ρ ε α : Type) where
  | item (a : α)
  | report (r : ρ)
  | halt (e : ε)
  deriving DecidableEq, Repr

namespace Event

variable {ρ ε α β : Type}

/-- Events followed by more events, which are lost if a halt comes before them. -/
def chain : List (Event ρ ε α) → List (Event ρ ε α) → List (Event ρ ε α)
  | [], more => more
  | halt e :: _, _ => [halt e]
  | report r :: rest, more => report r :: chain rest more
  | item a :: rest, more => item a :: chain rest more

/-- Induction on the events that come first. -/
theorem chain_induct {motive : List (Event ρ ε α) → List (Event ρ ε α) → List (Event ρ ε α) → Prop}
    (nil : ∀ more, motive [] more more)
    (halt : ∀ e rest more, motive (.halt e :: rest) more [.halt e])
    (report : ∀ r rest more, motive rest more (chain rest more) →
      motive (.report r :: rest) more (.report r :: chain rest more))
    (item : ∀ a rest more, motive rest more (chain rest more) →
      motive (.item a :: rest) more (.item a :: chain rest more))
    (es more : List (Event ρ ε α)) : motive es more (chain es more) :=
  chain.induct_unfolding motive nil halt report item es more

/-- The stage that works on one item at a time. -/
def each (f : α → List (Event ρ ε β)) : List (Event ρ ε α) → List (Event ρ ε β)
  | [] => []
  | halt e :: _ => [halt e]
  | report r :: rest => report r :: each f rest
  | item a :: rest => chain (f a) (each f rest)

/-- The items among some events. -/
def items : List (Event ρ ε α) → List α
  | [] => []
  | item a :: rest => a :: items rest
  | _ :: rest => items rest

/-- The reports among some events. -/
def reports : List (Event ρ ε α) → List ρ
  | [] => []
  | report r :: rest => r :: reports rest
  | _ :: rest => reports rest

/-- The halt among some events. -/
def halt? : List (Event ρ ε α) → Option ε
  | [] => none
  | halt e :: _ => some e
  | _ :: rest => halt? rest

/-- The outcome of some events: the items, unless a halt came. -/
def outcome (events : List (Event ρ ε α)) : Except ε (List α) :=
  match halt? events with
  | some e => .error e
  | none => .ok (items events)

end Event

end Kettle
