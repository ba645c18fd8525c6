/-
The loop at the prompt, as a function of what is typed: lines, each ended by the enter key, and
interrupts. Lines gather until they make an entry, and an interrupt throws them away.
-/
import Kettle.Session

namespace Kettle.Session

/-- What someone does at the prompt. -/
inductive Keys where
  | line (t : Text)
  | interrupt
  deriving DecidableEq, Repr

/-- A finished dialogue: what was shown, the entries that were submitted, and a fault that ended it,
if there is one. -/
structure Dialogue where
  shown : List Emission
  entries : List Text
  crash : Option Fault

/-- The prompt. -/
def prompt : Text := ">>> "

/-- What is shown first. -/
def banner : Text := "kettle repl. Ctrl-D to exit, / for commands\n"

/-- The dialogue with more before it. -/
def Dialogue.after (d : Dialogue) (shown : List Emission) (entries : List Text) : Dialogue :=
  ⟨shown ++ d.shown, entries ++ d.entries, d.crash⟩

/-- A session at its prompt, with what was typed since then. -/
structure Waiting where
  session : Session
  buffer : Text

/-- What the keys do: what is noted before an entry ends and shown after it, the entry, what is waited
for next, and a fault that ends the session, if there is one. -/
structure Turn where
  notes : List Emission
  shown : List Emission
  entry : Option Text
  next : Waiting
  crash : Option Fault

/-- What the enter key notes: the scan of an entry that is looked at for completeness may fail. -/
def enterNotes (buffer : Text) : List Emission :=
  if Entry.isCommand buffer || Text.isBlank buffer then []
  else match (Entry.scanned buffer).ending with
    | .failed cause pos => [.log (.lexical cause pos)]
    | .finished _ => []

/-- Takes what is typed at the prompt. Showing what comes of it may fail as well, and ends the session then. -/
def take (limits : Limits) (output : Emission.Output) (w : Waiting) : Keys → Turn
  | .interrupt =>
    let (shown, fault) := Emission.deliver output [.out "KeyboardInterrupt\n"]
    ⟨[], shown, none, ⟨w.session, []⟩, fault⟩
  | .line t =>
    let buffer := w.buffer ++ t
    if Entry.isSubmitted buffer then
      let r := w.session.submit limits buffer
      let (shown, fault) := Emission.deliver output r.shown
      ⟨enterNotes buffer, shown, some buffer, ⟨r.session, []⟩, fault.or r.crash⟩
    else ⟨enterNotes buffer, [], none, ⟨w.session, buffer ++ "\n"⟩, none⟩

/-- Everything that a turn puts on the screen, where the enter key that ends an entry breaks the line
and a prompt asks for the next one. -/
def Turn.screen (t : Turn) : List Emission :=
  let ended : List Emission := if t.entry.isSome then [.out "\n"] else []
  let asked : List Emission := if t.next.buffer.isEmpty && t.crash.isNone then [.out prompt] else []
  t.notes ++ ended ++ t.shown ++ asked

/-- Goes on with a dialogue, which ends when nothing more is typed. -/
def converse (limits : Limits) (output : Emission.Output) (w : Waiting) : List Keys → Dialogue
  | [] =>
    let (shown, fault) := Emission.deliver output [.out "\n"]
    ⟨shown, [], fault⟩
  | keys :: rest =>
    let turn := take limits output w keys
    match turn.crash with
    | some f => ⟨turn.screen, turn.entry.toList, some f⟩
    | none => (converse limits output turn.next rest).after turn.screen turn.entry.toList

/-- A whole dialogue. -/
def dialogue (limits : Limits) (output : Emission.Output) (trace : Bool) (keys : List Keys) : Dialogue :=
  match Emission.deliver output [.out banner] with
  | (shown, some f) => ⟨shown, [], some f⟩
  | (shown, none) => (converse limits output ⟨.start trace, []⟩ keys).after (shown ++ [.out prompt]) []

end Kettle.Session
