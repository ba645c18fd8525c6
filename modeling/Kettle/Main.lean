/-
The program itself: it reads arguments, settings, files and standard input, and shows what the command
line says.
-/
import Kettle.CommandLine

namespace Kettle

/-- Shows an emission. -/
def Emission.perform (shows : LogEntry → Bool) : Emission → IO Unit
  | .out t => do
    let output ← IO.getStdout
    output.putStr t.toString
    output.flush
  | .err t => do (← IO.getStderr).putStr t.toString
  | .log e => do if shows e then (← IO.getStderr).putStr e.line.toString
  | .clear => do (← IO.getStdout).putStr "\x1b[2J\x1b[H"

/-- Reads standard input to its end. -/
partial def readInput (input : IO.FS.Stream) (seen : ByteArray) : IO ByteArray := do
  let bytes ← input.read 4096
  if bytes.isEmpty then return seen else readInput input (seen ++ bytes)

/-- Reads the file at a path, if there is one. -/
def lookup (path : Path) : IO CommandLine.Lookup := do
  try return .contents (← IO.FS.readBinFile path.toText.toString).toList
  catch
    | .noFileOrDirectory .. | .inappropriateType .. => return .absent
    | .permissionDenied _ _ details => return .unreadable (.ofString details)
    | e => return .failed (.ofString (toString e))

/-- A setting of the surroundings. -/
def setting? (name : String) : IO (Option Text) := return (← IO.getEnv name).map Text.ofString

/-- Goes on with a dialogue at a terminal, which itself shows what is typed. -/
partial def converseAt (input : IO.FS.Stream) (shows : LogEntry → Bool)
    (w : Session.Waiting) : IO UInt32 := do
  IO.print (if w.buffer.isEmpty then Session.prompt.toString else "... ")
  (← IO.getStdout).flush
  let line ← input.getLine
  if line.isEmpty then
    IO.println ""
    return 0
  let typed := (Text.ofString line).filter fun (r : Rune) => r ≠ '\n'
  let turn := Session.take .standard Utf8.refusal? w (.line typed)
  for e in turn.notes ++ turn.shown do e.perform shows
  match turn.crash with
  | some f => do
    IO.eprintln f.describe.toString
    return 1
  | none => converseAt input shows turn.next

/-- Does what the arguments ask for. -/
def start (args : List Text) : IO UInt32 := do
  let input ← IO.getStdin
  let terminal ← input.isTty
  let request := CommandLine.request .run none args
  let named ← match request with
    | .process _ (some name) => lookup (.ofText name)
    | _ => pure .absent
  let logLevel ← setting? "KETTLE_LOG_LEVEL"
  let trace ← setting? "KETTLE_DEBUG_PY_TRACE"
  let interactive := terminal && request = .process .run none
  let bytes ← match request with
    | .process _ none => if interactive then pure .empty else readInput input .empty
    | .process _ (some name) => if name = "-" then readInput input .empty else pure .empty
    | _ => pure .empty
  let w : CommandLine.World :=
    ⟨args, fun _ => named, bytes.toList, terminal, [], Utf8.refusal?, logLevel, trace⟩
  if interactive then
    IO.print Session.banner.toString
    converseAt input w.shows ⟨.start w.traces, []⟩
  else
    let outcome := CommandLine.call .standard w
    for e in outcome.shown do e.perform w.shows
    if let some f := outcome.crash then IO.eprintln f.describe.toString
    return outcome.status.toUInt32

end Kettle

/-- The entry point. -/
def main (args : List String) : IO UInt32 := Kettle.start (args.map Kettle.Text.ofString)
