/-
Runes and texts. A rune is a Unicode code point, surrogates included, because an escape in a string
literal may denote any of them. Program texts, names, string values and messages are all lists of
runes.
-/

namespace Kettle

/-- A code point. -/
abbrev Rune := Fin 0x110000

/-- A sequence of code points. -/
abbrev Text := List Rune

namespace Rune

theorem toNat_lt (c : Char) : c.toNat < 0x110000 := by
  have h := c.valid
  unfold UInt32.isValidChar Nat.isValidChar at h
  unfold Char.toNat
  omega

/-- The rune of a character. -/
def ofChar (c : Char) : Rune := ⟨c.toNat, toNat_lt c⟩

instance : Coe Char Rune := ⟨ofChar⟩

/-- The rune with a given code; a number that is no code gives U+FFFD. -/
def ofNat (n : Nat) : Rune := if h : n < 0x110000 then ⟨n, h⟩ else 0xFFFD

/-- A rune that no text encoding can carry alone. -/
def isSurrogate (r : Rune) : Bool := 0xD800 ≤ r.val && r.val ≤ 0xDFFF

/-- The lower-case form of an ASCII letter; every other rune is itself. -/
def toLower (r : Rune) : Rune :=
  if h : 0x41 ≤ r.val ∧ r.val ≤ 0x5A then ⟨r.val + 0x20, by omega⟩ else r

/-- The upper-case form of an ASCII letter; every other rune is itself. -/
def toUpper (r : Rune) : Rune :=
  if 0x61 ≤ r.val ∧ r.val ≤ 0x7A then ⟨r.val - 0x20, by omega⟩ else r

end Rune

namespace Text

/-- The runes of a string. -/
def ofString (s : String) : Text := s.toList.map Rune.ofChar

instance : Coe String Text := ⟨ofString⟩

/-- The string of a text; a surrogate becomes U+FFFD. -/
def toString (t : Text) : String :=
  String.ofList (t.map fun r => if r.isSurrogate then '\ufffd' else Char.ofNat r.val)

/-- The texts one after the other with `between` at each joint. -/
def join (between : Text) : List Text → Text
  | [] => []
  | [t] => t
  | t :: ts => t ++ between ++ join between ts

/-- The decimal digit of a number below ten. -/
def digit (n : Nat) : Rune := ⟨0x30 + n % 10, by omega⟩

/-- A natural number in decimal digits, without leading zeros. -/
def ofNat (n : Nat) : Text :=
  if n < 10 then [digit n] else ofNat (n / 10) ++ [digit n]

/-- Induction on the decimal digits of a number. -/
theorem ofNat_induct {motive : Nat → Text → Prop}
    (single : ∀ n, n < 10 → motive n [digit n])
    (more : ∀ n, ¬ n < 10 → motive (n / 10) (ofNat (n / 10)) → motive n (ofNat (n / 10) ++ [digit n]))
    (n : Nat) : motive n (ofNat n) :=
  ofNat.induct_unfolding motive single more n

/-- An integer in decimal digits, with a minus sign if it is negative. -/
def ofInt : Int → Text
  | .ofNat n => ofNat n
  | .negSucc n => "-" ++ ofNat (n + 1)

/-- The lower-case hexadecimal digit of a number below sixteen. -/
def hexDigit (n : Nat) : Rune :=
  if n % 16 < 10 then ⟨0x30 + n % 16, by omega⟩ else ⟨0x57 + n % 16, by omega⟩

/-- The last `width` hexadecimal digits of a number. -/
def ofHex : (width : Nat) → Nat → Text
  | 0, _ => []
  | width + 1, n => ofHex width (n / 16) ++ [hexDigit n]

/-- The text before the first occurrence of `piece`, and the text after it. -/
def splitAt? (piece : Text) : Text → Option (Text × Text)
  | [] => if piece.isEmpty then some ([], []) else none
  | r :: rest =>
    if piece.isPrefixOf (r :: rest) then some ([], (r :: rest).drop piece.length)
    else (splitAt? piece rest).map fun (before, after) => (r :: before, after)

/-- The pieces of a text between the places where `mark` stands. -/
def pieces (mark : Rune) : Text → List Text
  | [] => [[]]
  | r :: rest =>
    if r = mark then [] :: pieces mark rest
    else match pieces mark rest with
      | [] => [[r]]
      | piece :: more => (r :: piece) :: more

/-- The lines of a text: its pieces between line feeds. -/
def lines (t : Text) : List Text := t.pieces '\n'

/-- The text with every carriage return, alone or before a line feed, read as a line feed;
`afterReturn` says that a carriage return came just before it. -/
def unifyBreaks (afterReturn : Bool) : Text → Text
  | [] => []
  | r :: rest =>
    if r = '\r' then "\n" ++ unifyBreaks true rest
    else if r = '\n' && afterReturn then unifyBreaks false rest
    else r :: unifyBreaks false rest

end Text

end Kettle
