/-
Commands of the prompt: a slash and a name, and after blanks perhaps an argument.
-/
import Kettle.Session.Entry

namespace Kettle

/-- What is asked of a switch. -/
inductive Switch where
  | turn (on : Bool)
  | toggle
  | invalid
  deriving DecidableEq, Repr

/-- A command. -/
inductive Command where
  | clear
  | traceback (switch : Switch)
  | reset
  | unknown (name : Text)
  deriving DecidableEq, Repr

namespace Command

/-- The commands there are, and what they do. -/
def known : List (Text × Text) :=
  [("/clear", "Clear the terminal screen"),
   ("/py-traceback", "Toggle Python traceback on errors"),
   ("/reset", "Reset the REPL environment")]

/-- The commands that a text is the beginning of. -/
def completions (t : Text) : List (Text × Text) :=
  if t.head? = some ('/' : Rune) then known.filter fun (name, _) => t.isPrefixOf name else []

/-- What the argument of a switch asks for, in either case. -/
def switch (arg : Text) : Switch :=
  let word := arg.map Rune.toLower
  if word = "on" || word = "1" || word = "true" || word = "yes" then .turn true
  else if word = "off" || word = "0" || word = "false" || word = "no" then .turn false
  else if arg.isEmpty then .toggle
  else .invalid

/-- The command of a name and an argument. -/
def ofWords (name arg : Text) : Command :=
  if name = "/clear" then .clear
  else if name = "/py-traceback" then .traceback (switch arg)
  else if name = "/reset" then .reset
  else .unknown name

/-- The command that an entry is. -/
def ofEntry? (entry : Text) : Option Command :=
  if Entry.isCommand entry then
    let line := Text.trim entry
    let name := line.takeWhile fun r => !r.isBlank
    some (ofWords name (Text.trimLeft (line.drop name.length)))
  else none

end Command

end Kettle
