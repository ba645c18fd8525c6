/-
A session at the prompt. Entries are run one after the other in the same scope, commands change the
session, and everything that is shown is an emission, so that the caller decides where it goes.
-/
import Kettle.Program
import Kettle.Session.Command

namespace Kettle

/-- Something that a session shows. -/
inductive Emission where
  | out (t : Text)
  | err (t : Text)
  | log (e : LogEntry)
  | clear

namespace Emission

/-- What goes to standard output; a cleared screen leaves a line of its own. -/
def outText : List Emission → Text
  | [] => []
  | out t :: rest => t ++ outText rest
  | clear :: rest => "<clear>\n" ++ outText rest
  | _ :: rest => outText rest

/-- What goes to standard error, with the log entries that are shown there. -/
def errText (shows : LogEntry → Bool) : List Emission → Text
  | [] => []
  | err t :: rest => t ++ errText shows rest
  | log e :: rest => (if shows e then e.line else []) ++ errText shows rest
  | _ :: rest => errText shows rest

/-- What standard output says to a text that it does not take. -/
abbrev Output := Text → Option Text

/-- Shows something up to the first text that standard output does not take; that is a fault. -/
def deliver (output : Output) : List Emission → List Emission × Option Fault
  | [] => ([], none)
  | out t :: rest =>
    match output t with
    | some reason => ([], some (.outside (.output reason)))
    | none =>
      let (shown, fault) := deliver output rest
      (out t :: shown, fault)
  | e :: rest =>
    let (shown, fault) := deliver output rest
    (e :: shown, fault)

/-- The complaints in the log. -/
def complaints (es : List Emission) : List Complaint :=
  es.filterMap fun
    | log e => e.complaint?
    | _ => none

end Emission

/-- A session: the machine, the scope that entries run in, and whether faults come with a traceback. -/
structure Session where
  machine : Machine
  scope : ScopeId
  trace : Bool

/-- What a step of a session leaves: what it showed, the session after it, and a fault that ends the
session, if there is one. -/
structure Reply where
  shown : List Emission
  session : Session
  crash : Option Fault

namespace Session

/-- Whether a setting of the traceback variable turns tracebacks on. -/
def traceSetting : Option Text → Bool
  | none => false
  | some t => !(t.isEmpty || t = "0")

/-- A new session. -/
def start (trace : Bool) : Session := ⟨.initial, Store.root, trace⟩

/-- The text in place of a traceback. -/
def traceback : Text := "<traceback>\n"

/-- What is shown of the value of an entry: the last value unless it is nil, or a signal. -/
def echo : Value → Option Value
  | .tuple [_, .nil] => none
  | .tuple [_, last] => some last
  | .flow kind payload => some (.flow kind payload)
  | _ => none

/-- A session that goes on after showing something. -/
def reply (s : Session) (shown : List Emission) : Reply := ⟨shown, s, none⟩

/-- What is shown of a fault. -/
def faultText (s : Session) (f : Fault) : Text :=
  "error: " ++ f.describe ++ "\n" ++ if s.trace then "\nPython traceback:\n" ++ traceback else []

/-- Runs an entry and shows its value. Only errors of the language are dealt with: any other fault of the run ends
the session, and so does a value that is too deep to be written out. -/
def eval (limits : Limits) (s : Session) (entry : Text) : Reply :=
  let r := run limits Entry.sourceName entry s.scope s.machine
  let after : Session := ⟨r.machine, s.scope, s.trace⟩
  let notes := r.log.map Emission.log
  match r.result with
  | .error f => if f.isError then after.reply (notes ++ [.err (s.faultText f)]) else ⟨notes, after, some f⟩
  | .ok v =>
    match echo v with
    | none => after.reply notes
    | some w =>
      match w.shown? limits.nodes with
      | some t => after.reply (notes ++ [.out (t ++ "\n")])
      | none => ⟨notes, after, some (.outside .tooDeepToWrite)⟩

/-- The session with tracebacks on or off, and what is shown of that. -/
def setTrace (s : Session) (on : Bool) : Reply :=
  reply ⟨s.machine, s.scope, on⟩
    [.out ("Python traceback: " ++ (if on then Text.ofString "on" else "off") ++ "\n")]

/-- The session in a new scope of its own. -/
def reset (s : Session) : Session :=
  match s.machine with
  | ⟨store, escaped⟩ =>
    let (id, store) := store.add none
    ⟨⟨store, escaped⟩, id, s.trace⟩

/-- Obeys a command. -/
def obey (s : Session) : Command → Reply
  | .clear => s.reply [.clear]
  | .traceback (.turn on) => s.setTrace on
  | .traceback .toggle => s.setTrace !s.trace
  | .traceback .invalid => s.reply [.err "Usage: /py-traceback [on|off]\n"]
  | .reset => s.reset.reply [.out "Environment reset.\n"]
  | .unknown name => s.reply [.err ("Unknown command: " ++ name ++ "\n")]

/-- Obeys an entry that is a command, and runs any other. -/
def handle (limits : Limits) (s : Session) (entry : Text) : Reply :=
  match Command.ofEntry? entry with
  | some c => s.obey c
  | none => s.eval limits entry

/-- Takes an entry as it was typed. -/
def submit (limits : Limits) (s : Session) (typed : Text) : Reply :=
  let entry := Entry.cleaned typed
  if Text.isBlank entry then s.reply [] else s.handle limits entry

end Session

end Kettle
