/-
String literals. Between double or single quotes a backslash starts an escape: a letter for a
control rune, one of the marks themselves, or a code of two, four or eight hexadecimal digits. Between
backquotes everything stands for itself.
-/
import Kettle.Text.Digit
import Kettle.Fault
import Kettle.Literal

namespace Kettle.Literal

/-- The escapes of one rune. -/
def simpleEscapes : List (Rune × Rune) :=
  [('n', '\n'), ('t', '\t'), ('r', '\r'), ('\\', '\\'), ('"', '"'), ('\x27', '\x27'), ('0', '\x00'),
   ('a', '\x07'), ('b', '\x08'), ('f', '\x0c'), ('v', '\x0b')]

/-- How many hexadecimal digits follow the rune after a backslash. -/
def hexWidth? (r : Rune) : Option Nat :=
  if r = 'x' then some 2 else if r = 'u' then some 4 else if r = 'U' then some 8 else none

/-- The number that hexadecimal digits spell. -/
def hexValue? (digits : Text) : Option Nat :=
  digits.foldlM (fun n r => r.hex?.map (n * 16 + ·)) 0

/-- An escape: the rune it stands for, if any, how many runes it takes after its first one, and its
text without the backslash. -/
structure Escape where
  rune? : Option Rune
  width : Nat
  text : Text

/-- The escape that starts with the rune `r` after a backslash. -/
def readEscape (r : Rune) (rest : Text) : Escape :=
  let simple : Escape := ⟨simpleEscapes.lookup r, 0, [r]⟩
  match hexWidth? r with
  | none => simple
  | some width =>
    let digits := rest.take width
    if digits.length < width then simple
    else match hexValue? digits with
      | none => simple
      | some code => ⟨if h : code < 0x110000 then some ⟨code, h⟩ else none, width, r :: digits⟩

/-- The text that the inside of a literal stands for, or its first escape that stands for nothing. A
backslash at the very end stands for itself. -/
def decode : Text → Except Text Text
  | [] => .ok []
  | r :: rest =>
    if r ≠ '\\' then (decode rest).map (r :: ·)
    else match rest with
      | [] => .ok [r]
      | e :: after =>
        let escape := readEscape e after
        match escape.rune? with
        | none => .error escape.text
        | some c => (decode (after.drop escape.width)).map (c :: ·)
termination_by t => t.length
decreasing_by all_goals (simp only [List.length_cons, List.length_drop]; omega)

/-- Induction on the inside of a literal: a rune that stands for itself, a backslash at the end, and an escape that
stands for nothing or for a rune. -/
theorem decode_induct {motive : Text → Except Text Text → Prop}
    (nil : motive [] (.ok []))
    (plain : ∀ r rest, r ≠ ('\\' : Rune) → motive rest (decode rest) → motive (r :: rest) ((decode rest).map (r :: ·)))
    (lone : ∀ r : Rune, ¬ r ≠ ('\\' : Rune) → motive [r] (.ok [r]))
    (invalid : ∀ r : Rune, ¬ r ≠ ('\\' : Rune) → ∀ e after, (readEscape e after).rune? = none →
      motive (r :: e :: after) (.error (readEscape e after).text))
    (escape : ∀ r : Rune, ¬ r ≠ ('\\' : Rune) → ∀ e after c, (readEscape e after).rune? = some c →
      motive (after.drop (readEscape e after).width) (decode (after.drop (readEscape e after).width)) →
      motive (r :: e :: after) ((decode (after.drop (readEscape e after).width)).map (c :: ·)))
    (body : Text) : motive body (decode body) :=
  decode.induct_unfolding motive nil plain lone invalid escape body

/-- The text between the delimiters of a literal. -/
def inside (text : Text) : Text := (text.drop 1).dropLast

/-- The text that the inside of a literal stands for, with faults at a position. -/
def decodeAt (body : Text) (pos : Position) : Except Fault Text :=
  (decode body).mapError fun escape => .compile (.invalidEscape escape) pos

/-- The text that a string literal spells. -/
def ofString (kind : Kind) (text : Text) (pos : Position) : Except Fault Literal :=
  if kind = .backquoted then .ok (.str (inside text))
  else (decodeAt (inside text) pos).map .str

end Kettle.Literal
