/-
The command line. A source is read from a file or from standard input and run, or its tokens or its
tree are listed; without a source, at a terminal, there is a dialogue instead.
-/
import Kettle.Path
import Kettle.Session.Loop

namespace Kettle.CommandLine

/-- The one line about how to call the program. -/
def usage : Text := "usage: kettle [--tokens | --tree] [--threaded] [FILE | -]"

/-- What is done with a source. -/
inductive Mode where
  | run | tokens | tree
  deriving DecidableEq, Repr

/-- What the arguments ask for. Sources are always built one stage after the other, so a wish for
threads changes nothing. -/
inductive Request where
  | help
  | unexpected (arg : Text)
  | process (mode : Mode) (source : Option Text)
  deriving DecidableEq, Repr

/-- Reads arguments from left to right; the last mode counts, and a second source is one too many. -/
def request (mode : Mode) (source : Option Text) : List Text → Request
  | [] => .process mode source
  | arg :: rest =>
    if arg = "-h" || arg = "--help" then .help
    else if arg = "--tokens" then request .tokens source rest
    else if arg = "--tree" then request .tree source rest
    else if arg = "--threaded" then request mode source rest
    else match source with
      | none => request mode (some arg) rest
      | some _ => .unexpected arg

/-- What there is at a path. -/
inductive Lookup where
  /-- No file. -/
  | absent
  /-- A file with its contents. -/
  | contents (bytes : List UInt8)
  /-- A file that cannot be read. -/
  | unreadable (reason : Text)
  /-- The system does not say. -/
  | failed (reason : Text)

/-- What surrounds a call of the program. -/
structure World where
  args : List Text
  /-- What there is at a path. -/
  file : Path → Lookup
  /-- Standard input, which is decoded as a whole before anything is done with it. -/
  input : List UInt8
  /-- Whether standard input is a terminal. -/
  terminal : Bool
  /-- What is done at the terminal. -/
  keys : List Session.Keys
  /-- Standard output. -/
  output : Emission.Output
  /-- The setting of the log level. -/
  logLevel : Option Text
  /-- The setting of tracebacks. -/
  trace : Option Text

/-- What comes of a call: the exit status, what is shown, and the entries of a dialogue; and the fault that no part
of the program deals with, if it ends with one. -/
structure Outcome where
  status : Nat
  shown : List Emission
  entries : List Text
  crash : Option Fault

namespace World

/-- Whether faults come with a traceback. -/
def traces (w : World) : Bool := Session.traceSetting w.trace

/-- Whether a log entry is shown: it weighs as much as the level asked for, or else as a warning. -/
def shows (w : World) (e : LogEntry) : Bool :=
  Level.threshold (w.logLevel.getD "WARNING") ≤ e.level.weight

/-- The name and the text of standard input, with every line break a line feed. -/
def readInput (w : World) : Except Fault (Text × Text) :=
  match Utf8.decode w.input with
  | .error fault => .error (.outside (.input fault))
  | .ok text => .ok ("<stdin>", Text.unifyBreaks false text)

/-- The name and the text of a source, with every line break a line feed. -/
def readSource (w : World) : Option Text → Except Fault (Text × Text)
  | none => w.readInput
  | some arg =>
    if arg = "-" then w.readInput
    else match w.file (.ofText arg) with
      | .absent => .error (.source (.noSuchFile arg))
      | .failed reason => .error (.outside (.lookup reason))
      | .unreadable reason => .error (.source (.unreadable arg reason))
      | .contents bytes =>
        match Utf8.decode bytes with
        | .error fault => .error (.source (.undecodable arg fault))
        | .ok text => .ok (arg, Text.unifyBreaks false text)

end World

/-- What came of a source: what is shown, and the fault it stopped at. -/
abbrev Work := List Emission × Option Fault

/-- Lists the tokens of a source. -/
def listTokens (name text : Text) : Work :=
  let s := scan name text
  match s.ending with
  | .finished _ => (s.stream.map fun t => .out t.listing, none)
  | .failed cause pos =>
    ((s.tokens.map fun t => .out t.listing) ++ [.log (.lexical cause pos)], some (.lexical cause pos))

/-- Lists statements, up to one that is too deep to be shown. -/
def listStatements (limits : Limits) : List Node → Work
  | [] => ([], none)
  | n :: ns =>
    if limits.nodes < n.depth then ([], some (.source .tooDeepToShow))
    else
      let (shown, fault) := listStatements limits ns
      (.out (n.compact ++ "\n") :: shown, fault)

/-- Lists the statements of a source. -/
def listTree (limits : Limits) (name text : Text) : Work :=
  let built := parse limits name text
  let notes := built.log.map Emission.log
  match built.result with
  | .error f => (notes, some f)
  | .ok root =>
    let (shown, fault) := listStatements limits root.children
    (notes ++ shown, fault)

/-- Runs a source in a new scope. -/
def runSource (limits : Limits) (name text : Text) : Work :=
  let r := Kettle.run limits name text Store.root .initial
  (r.log.map Emission.log, match r.result with
    | .error f => some f
    | .ok _ => none)

/-- Does what is asked with a source. -/
def work (limits : Limits) : Mode → Text → Text → Work
  | .tokens => listTokens
  | .tree => listTree limits
  | .run => runSource limits

/-- The end of a call that is to show something and to leave with a status. -/
def World.leave (w : World) (status : Nat) (emissions : List Emission) : Outcome :=
  match Emission.deliver w.output emissions with
  | (shown, none) => ⟨status, shown, [], none⟩
  | (shown, some f) => ⟨1, shown, [], some f⟩

/-- The end of a call whose work is done. What the work shows comes before the fault it stopped at, and only an
error of the language is reported. -/
def conclude (w : World) : Work → Outcome
  | (shown, none) => w.leave 0 shown
  | (shown, some f) =>
    if f.isError then
      let report := "error: " ++ f.describe ++ "\n" ++ if w.traces then Session.traceback else []
      w.leave 1 (shown ++ [.err report])
    else
      let o := w.leave 1 shown
      ⟨1, o.shown, [], o.crash.or (some f)⟩

/-- A call of the program. -/
def call (limits : Limits) (w : World) : Outcome :=
  match request .run none w.args with
  | .help => w.leave 0 [.out (usage ++ "\n")]
  | .unexpected arg => w.leave 2 [.err ("error: unexpected argument: " ++ arg ++ "\n" ++ usage ++ "\n")]
  | .process mode source =>
    if source.isNone && mode = .run && w.terminal then
      let d := Session.dialogue limits w.output w.traces w.keys
      ⟨if d.crash.isSome then 1 else 0, d.shown, d.entries, d.crash⟩
    else conclude w (match w.readSource source with
      | .error f => ([], some f)
      | .ok (name, text) => work limits mode name text)

end Kettle.CommandLine
