/-
Highlighting a line of an entry: the line is cut into fragments, each with the style of its token. What
lies between tokens has no style, and what cannot be scanned is marked as an error to its end.
-/
import Kettle.Literal
import Kettle.Node
import Kettle.Text.Blank
import Kettle.Token.Scan

namespace Kettle.Highlight

/-- What a token is to a reader. -/
inductive Group where
  | keyword | constant | number | string | identifier | operator | punctuation | comment | error
  deriving DecidableEq, Repr

/-- The style of a group. -/
def Group.style : Group → Text
  | keyword => "bold ansicyan"
  | constant => "ansicyan"
  | number => "ansimagenta"
  | string => "ansigreen"
  | identifier | operator | punctuation => ""
  | comment => "italic ansigray"
  | error => "bold ansired"

/-- The group of a token. -/
def groupOf (t : Token) : Group :=
  match t.kind with
  | .ident =>
    if (Node.keywords.lookup t.text).isSome then .keyword
    else if (Literal.ofName? t.text).isSome then .constant
    else .identifier
  | .number => .number
  | .doubleQuoted | .singleQuoted | .backquoted => .string
  | .hashComment | .slashComment => .comment
  | .lpar | .rpar | .lbrace | .rbrace | .comma | .dot | .separator => .punctuation
  | _ => .operator

/-- A piece of a line and its style. -/
structure Fragment where
  style : Text
  text : Text
  deriving DecidableEq, Repr

/-- A fragment without style, if it holds anything. -/
def plain (t : Text) : List Fragment := if t.isEmpty then [] else [⟨[], t⟩]

/-- The fragments of what could not be scanned: the blanks before it, and the rest as an error. -/
def failed (rest : Text) : List Fragment :=
  plain (rest.takeWhile Rune.isBlank) ++ [⟨Group.error.style, Text.trimLeft rest⟩]

/-- The fragments of the rest of a line, by the tokens found in it. A token made of blanks only is
left to what lies between. -/
def fragments (ending : Ending) (rest : Text) : List Token → List Fragment
  | [] =>
    match ending with
    | .finished _ => plain rest
    | .failed .. => failed rest
  | t :: ts =>
    if Text.isBlank t.text then fragments ending rest ts
    else match Text.splitAt? t.text rest with
      | none => fragments ending rest ts
      | some (before, after) =>
        plain before ++ ⟨(groupOf t).style, t.text⟩ :: fragments ending after ts

/-- Induction on the tokens of a line: behind the last one it ends or is no longer scanned, and a token is made of
blanks only, is not found, or is found. -/
theorem fragments_induct (ending : Ending) {motive : Text → List Token → List Fragment → Prop}
    (finished : ∀ rest pos, ending = .finished pos → motive rest [] (plain rest))
    (failed : ∀ rest cause pos, ending = .failed cause pos → motive rest [] (failed rest))
    (blank : ∀ rest t ts, Text.isBlank t.text = true → motive rest ts (fragments ending rest ts) →
      motive rest (t :: ts) (fragments ending rest ts))
    (missing : ∀ rest t ts, ¬ Text.isBlank t.text = true → Text.splitAt? t.text rest = none →
      motive rest ts (fragments ending rest ts) → motive rest (t :: ts) (fragments ending rest ts))
    (found : ∀ rest t ts, ¬ Text.isBlank t.text = true → ∀ before after,
      Text.splitAt? t.text rest = some (before, after) → motive after ts (fragments ending after ts) →
      motive rest (t :: ts) (plain before ++ ⟨(groupOf t).style, t.text⟩ :: fragments ending after ts))
    (rest : Text) (ts : List Token) : motive rest ts (fragments ending rest ts) :=
  fragments.induct_unfolding ending motive finished failed blank missing found rest ts

/-- The fragments of a line; a line without any has one that is empty. -/
def line (text : Text) : List Fragment :=
  let s := scan "<repl>" text
  match fragments s.ending text s.tokens with
  | [] => [⟨[], text⟩]
  | found => found

/-- The fragments of a line by its number; behind the last line there is one that is empty. -/
def lineAt (lines : List Text) (n : Nat) : List Fragment :=
  match lines[n]? with
  | some t => line t
  | none => [⟨[], []⟩]

/-- The fragments of lines that were asked for, by the numbers of the lines. -/
abbrev Cache := List (Nat × List Fragment)

/-- Asks for the fragments of a line, which are found out only once. -/
def ask (lines : List Text) (cache : Cache) (n : Nat) : List Fragment × Cache :=
  match cache.lookup n with
  | some found => (found, cache)
  | none => (lineAt lines n, (n, lineAt lines n) :: cache)

/-- Asks for the fragments of one line after the other. -/
def askAll (lines : List Text) (cache : Cache) : List Nat → List (List Fragment) × Cache
  | [] => ([], cache)
  | n :: ns =>
    let (found, cache) := ask lines cache n
    let (more, cache) := askAll lines cache ns
    (found :: more, cache)

/-- The fragments of each line of a text, and of the line after the last one, asked for `times` times. -/
def document (text : Text) : (times : Nat) → Cache → List (List (List Fragment))
  | 0, _ => []
  | times + 1, cache =>
    let (found, cache) := askAll (Text.lines text) cache (List.range ((Text.lines text).length + 1))
    found :: document text times cache

end Kettle.Highlight
