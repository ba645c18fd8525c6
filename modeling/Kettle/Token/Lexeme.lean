/-
Lexemes: what a single token may be. At a rune that is no blank, `Lexeme.read` takes the longest lexeme
that starts there, or says why there is none. Nothing is lost: the lexeme and the text after it are
the text it was taken from.
-/
import Kettle.Text.Letter
import Kettle.Text.Digit
import Kettle.Fault.Lexical

namespace Kettle

/-- The kind of a lexeme, its runes after the first one, and the text after it. -/
structure Lexeme where
  kind : Kind
  more : Text
  rest : Text
  deriving DecidableEq, Repr

namespace Lexeme

/-! ## Rune classes -/

/-- The six blanks that lay out a program. -/
def isSpace (r : Rune) : Bool :=
  r = ' ' || r = '\t' || r = '\n' || r = '\r' || r = '\x0b' || r = '\x0c'

/-- The blanks that can end a statement. -/
def isBreak (r : Rune) : Bool :=
  r = '\n' || r = '\r' || r = '\x0b' || r = '\x0c'

/-- The runes that can start a name. -/
def startsWord (r : Rune) : Bool := r = '_' || r.isLetter

/-- The runes that can go on with a name. -/
def continuesWord (r : Rune) : Bool := startsWord r || r.isDigit

/-! ## Operators -/

/-- The operators of one rune. -/
def singles : List (Rune × Kind) :=
  [(';', .separator), (',', .comma), ('+', .plus), ('-', .minus), ('*', .star), ('/', .slash),
   ('%', .mod), ('<', .lt), ('>', .gt), ('!', .not), ('.', .dot), ('=', .assign), ('(', .lpar),
   (')', .rpar), ('\x7b', .lbrace), ('\x7d', .rbrace)]

/-- The operators of two runes. -/
def doubles : List ((Rune × Rune) × Kind) :=
  [(('>', '>'), .pipe), (('>', '='), .gte), (('!', '='), .neq), (('=', '='), .eq),
   ((':', '='), .assign), (('+', '='), .plusEq), (('-', '='), .minusEq), (('*', '='), .starEq),
   (('/', '='), .slashEq), (('%', '='), .modEq), (('<', '='), .lte), (('|', '|'), .or),
   (('&', '&'), .and)]

/-- The operator of two runes at a rune. -/
def double? (r : Rune) : Text → Option Lexeme
  | [] => none
  | next :: after => (doubles.lookup (r, next)).map fun kind => ⟨kind, [next], after⟩

/-- The operator at a rune, the longer one first. -/
def operator? (r : Rune) (rest : Text) : Option Lexeme :=
  match double? r rest with
  | some lexeme => some lexeme
  | none => (singles.lookup r).map fun kind => ⟨kind, [], rest⟩

/-! ## Lexemes of many runes -/

/-- A lexeme that goes on as long as its runes are of a class. -/
def run (kind : Kind) (p : Rune → Bool) (rest : Text) : Lexeme :=
  ⟨kind, rest.takeWhile p, rest.dropWhile p⟩

/-- A lexeme with more runes before those it has. -/
def extend (t : Text) (l : Lexeme) : Lexeme := ⟨l.kind, t ++ l.more, l.rest⟩

/-- The digits and the point of a number, after its first digit; `point` says that its point came
already. -/
def number (point : Bool) : Text → Except LexicalCause Lexeme
  | [] => .ok ⟨.number, [], []⟩
  | r :: rest =>
    if r.isAsciiDigit then (number point rest).map (extend [r])
    else if r = '.' then
      if point then .error .secondPoint
      else (number true rest).map (extend [r])
    else if startsWord r then .error (.letterInNumber r)
    else .ok ⟨.number, [], r :: rest⟩

/-- Induction on the text after the first digit of a number. -/
theorem number_induct {motive : Bool → Text → Except LexicalCause Lexeme → Prop}
    (nil : ∀ point, motive point [] (.ok ⟨.number, [], []⟩))
    (digit : ∀ point r rest, r.isAsciiDigit = true → motive point rest (number point rest) →
      motive point (r :: rest) ((number point rest).map (extend [r])))
    (secondPoint : ∀ rest, ¬ ('.' : Rune).isAsciiDigit = true →
      motive true (('.' : Rune) :: rest) (.error .secondPoint))
    (point : ∀ point rest, ¬ point = true → ¬ ('.' : Rune).isAsciiDigit = true →
      motive true rest (number true rest) →
      motive point (('.' : Rune) :: rest) ((number true rest).map (extend [('.' : Rune)])))
    (letter : ∀ point r rest, ¬ r.isAsciiDigit = true → ¬ r = ('.' : Rune) → startsWord r = true →
      motive point (r :: rest) (.error (.letterInNumber r)))
    (ending : ∀ point r rest, ¬ r.isAsciiDigit = true → ¬ r = ('.' : Rune) → ¬ startsWord r = true →
      motive point (r :: rest) (.ok ⟨.number, [], r :: rest⟩))
    (seen : Bool) (text : Text) : motive seen text (number seen text) :=
  number.induct_unfolding motive nil digit secondPoint point letter ending seen text

/-- A string after its opening quote, up to and with its closing one. -/
def quoted (quote : Quote) : Text → Except LexicalCause Lexeme
  | [] => .error (.unclosedString quote)
  | r :: rest =>
    if quote.isEscaped && (r = '\n' || r = '\r') then .error (.unclosedString quote)
    else if quote.isEscaped && r = '\\' then
      match rest with
      | [] => .error (.unclosedString quote)
      | next :: after => (quoted quote after).map (extend [r, next])
    else if r = quote.rune then .ok ⟨quote.kind, [r], rest⟩
    else (quoted quote rest).map (extend [r])

/-- Induction on the text after an opening quote. -/
theorem quoted_induct (quote : Quote) {motive : Text → Except LexicalCause Lexeme → Prop}
    (nil : motive [] (.error (.unclosedString quote)))
    (lineBreak : ∀ (r : Rune) rest, (quote.isEscaped && (r = '\n' || r = '\r')) = true →
      motive (r :: rest) (.error (.unclosedString quote)))
    (loneEscape : ∀ r : Rune, ¬ (quote.isEscaped && (r = '\n' || r = '\r')) = true →
      (quote.isEscaped && r = '\\') = true → motive [r] (.error (.unclosedString quote)))
    (escape : ∀ r : Rune, ¬ (quote.isEscaped && (r = '\n' || r = '\r')) = true →
      (quote.isEscaped && r = '\\') = true → ∀ next after, motive after (quoted quote after) →
      motive (r :: next :: after) ((quoted quote after).map (extend [r, next])))
    (closing : ∀ rest, ¬ (quote.isEscaped && (quote.rune = '\n' || quote.rune = '\r')) = true →
      ¬ (quote.isEscaped && quote.rune = '\\') = true →
      motive (quote.rune :: rest) (.ok ⟨quote.kind, [quote.rune], rest⟩))
    (plain : ∀ (r : Rune) rest, ¬ (quote.isEscaped && (r = '\n' || r = '\r')) = true →
      ¬ (quote.isEscaped && r = '\\') = true → ¬ r = quote.rune → motive rest (quoted quote rest) →
      motive (r :: rest) ((quoted quote rest).map (extend [r])))
    (text : Text) : motive text (quoted quote text) :=
  quoted.induct_unfolding quote motive nil lineBreak loneEscape escape closing plain text

/-- The lexeme at the rune `r`, which is no blank, before the text `rest`. -/
def read (r : Rune) (rest : Text) : Except LexicalCause Lexeme :=
  if r = '#' then .ok (run .hashComment (fun c => !isBreak c) rest)
  else match Quote.ofRune? r with
    | some quote => quoted quote rest
    | none =>
      if r.isAsciiDigit then number false rest
      else if r = '/' && rest.head? = some ('/' : Rune) then
        .ok (run .slashComment (fun c => !isBreak c) rest)
      else match operator? r rest with
        | some lexeme => .ok lexeme
        | none =>
          if startsWord r then .ok (run .ident continuesWord rest)
          else .error (.unrecognized r)

/-! ## Nothing is lost -/

@[simp] theorem run_append (kind : Kind) (p : Rune → Bool) (rest : Text) :
    (run kind p rest).more ++ (run kind p rest).rest = rest := by
  simp [run]

theorem map_eq_ok {x : Except LexicalCause Lexeme} {t : Text} {l : Lexeme}
    (h : x.map (extend t) = .ok l) : ∃ l', x = .ok l' ∧ extend t l' = l := by
  cases x with
  | error e => cases h
  | ok l' => exact ⟨l', rfl, Except.ok.inj h⟩

theorem extend_append (t : Text) (l : Lexeme) :
    (extend t l).more ++ (extend t l).rest = t ++ (l.more ++ l.rest) := by
  simp [extend]

theorem number_append {point : Bool} {text : Text} {l : Lexeme} (h : number point text = .ok l) :
    l.more ++ l.rest = text := by
  fun_induction number point text generalizing l <;> grind [map_eq_ok, extend_append]

theorem quoted_append {quote : Quote} {text : Text} {l : Lexeme} (h : quoted quote text = .ok l) :
    l.more ++ l.rest = text := by
  fun_induction quoted quote text generalizing l <;> grind [map_eq_ok, extend_append]

theorem double?_append {r : Rune} {rest : Text} {l : Lexeme} (h : double? r rest = some l) :
    l.more ++ l.rest = rest := by
  cases rest with
  | nil => cases h
  | cons next after =>
    obtain ⟨kind, -, rfl⟩ := Option.map_eq_some_iff.1 h
    rfl

theorem operator?_append {r : Rune} {rest : Text} {l : Lexeme} (h : operator? r rest = some l) :
    l.more ++ l.rest = rest := by
  unfold operator? at h
  split at h
  · cases h; exact double?_append ‹_›
  · obtain ⟨kind, -, rfl⟩ := Option.map_eq_some_iff.1 h
    rfl

/-- A lexeme and the text after it are the text it was taken from. -/
theorem read_append {r : Rune} {rest : Text} {l : Lexeme} (h : read r rest = .ok l) :
    l.more ++ l.rest = rest := by
  unfold read at h
  grind [run_append, number_append, quoted_append, operator?_append]

theorem read_rest_length {r : Rune} {rest : Text} {l : Lexeme} (h : read r rest = .ok l) :
    l.rest.length ≤ rest.length := by
  have := congrArg List.length (read_append h)
  simp only [List.length_append] at this
  omega

end Lexeme

end Kettle
