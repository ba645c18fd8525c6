/-
The log. What happens on the way from a source to its value is noted in entries of a level, under the
name of the part that notes it.
-/
import Kettle.Fault
import Kettle.Kind

namespace Kettle

/-- How much an entry matters. -/
inductive Level where
  | debug | info | warning | error | critical
  deriving DecidableEq, Repr

namespace Level

/-- The weight of a level. -/
def weight : Level → Nat
  | debug => 10
  | info => 20
  | warning => 30
  | error => 40
  | critical => 50

/-- The name of a level. -/
def name : Level → Text
  | debug => "DEBUG"
  | info => "INFO"
  | warning => "WARNING"
  | error => "ERROR"
  | critical => "CRITICAL"

/-- The least weight that is shown, by the name asked for in upper case. -/
def thresholds : List (Text × Nat) :=
  [("NOTSET", 0), ("DEBUG", debug.weight), ("INFO", info.weight), ("WARN", warning.weight),
   ("WARNING", warning.weight), ("ERROR", error.weight), ("CRITICAL", critical.weight),
   ("FATAL", critical.weight)]

/-- The least weight that is shown; a name that is no level asks for warnings. -/
def threshold (name : Text) : Nat := (thresholds.lookup (name.map Rune.toUpper)).getD warning.weight

end Level

/-- Something worth noting. -/
inductive LogEntry where
  | lexical (cause : LexicalCause) (pos : Position)
  | complaint (c : Complaint)
  | compiled (kind : Kind) (pos : Position)
  | escaped (signal : Text)
  deriving DecidableEq, Repr

namespace LogEntry

/-- The level of an entry. -/
def level : LogEntry → Level
  | complaint _ => .warning
  | _ => .debug

/-- The part that notes an entry. -/
def logger : LogEntry → Text
  | lexical .. => "kettle.lexer"
  | complaint _ => "kettle.parser"
  | compiled .. => "kettle.evaluator"
  | escaped _ => "kettle.eval.fn"

/-- The wording of an entry. -/
def message : LogEntry → Text
  | lexical cause pos => pos.label ++ " " ++ cause.message
  | complaint c => c.describe
  | compiled kind pos => "compiled " ++ kind.name ++ " at " ++ pos.label
  | escaped signal => signal ++ " escaped a function call"

/-- An entry as it is written, one entry a line. -/
def line (e : LogEntry) : Text := e.level.name ++ " " ++ e.logger ++ ": " ++ e.message ++ "\n"

/-- The complaint of an entry that is one. -/
def complaint? : LogEntry → Option Complaint
  | complaint c => some c
  | _ => none

end LogEntry

end Kettle
