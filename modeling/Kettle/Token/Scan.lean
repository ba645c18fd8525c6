/-
Scanning a source. Blanks separate tokens and are dropped, but the first line break after a token that
can end a statement becomes a separator; comments are tokens and do not come between the two.
Scanning ends at the end of the source or at the first place where no lexeme starts.
-/
import Kettle.Token
import Kettle.Token.Cursor
import Kettle.Token.Lexeme

namespace Kettle

/-- How a scan ends: at the end of the source, or at a lexical fault. -/
inductive Ending where
  | finished (pos : Position)
  | failed (cause : LexicalCause) (pos : Position)
  deriving DecidableEq, Repr

/-- The tokens of a source, and how the scan ends. -/
structure Scan where
  tokens : List Token
  ending : Ending
  deriving DecidableEq, Repr

namespace Ending

/-- The tokens that stand for an ending in a token stream: a fault is an error token whose text is
the message, and the stream always ends with an empty token. -/
def tokens : Ending → List Token
  | finished pos => [⟨.eof, [], pos⟩]
  | failed cause pos => [⟨.error, cause.message, pos⟩, ⟨.eof, [], pos⟩]

end Ending

namespace Scan

/-- The scan with one more token before it. -/
def cons (t : Token) (s : Scan) : Scan := ⟨t :: s.tokens, s.ending⟩

/-- The whole token stream of a scan. -/
def stream (s : Scan) : List Token := s.tokens ++ s.ending.tokens

/-- Scans a text from a cursor; `last` is the kind of the last token that is no comment. -/
def scanFrom (source : Text) (cursor : Cursor) (last : Option Kind) : Text → Scan
  | [] => ⟨[], .finished (cursor.position source)⟩
  | r :: rest =>
    if Lexeme.isSpace r then
      if Lexeme.isBreak r && last.any Kind.endsStatement then
        cons ⟨.separator, [r], cursor.position source⟩
          (scanFrom source (cursor.step r) (some .separator) rest)
      else scanFrom source (cursor.step r) last rest
    else
      match h : Lexeme.read r rest with
      | .error cause => ⟨[], .failed cause (cursor.position source)⟩
      | .ok lexeme =>
        have : lexeme.rest.length ≤ rest.length := Lexeme.read_rest_length h
        cons ⟨lexeme.kind, r :: lexeme.more, cursor.position source⟩
          (scanFrom source (cursor.advance (r :: lexeme.more))
            (if lexeme.kind.isComment then last else some lexeme.kind) lexeme.rest)
termination_by text => text.length

end Scan

/-- Scans a whole source. -/
def scan (source text : Text) : Scan := Scan.scanFrom source .start none text

/-- The token stream of a source. -/
def tokenStream (source text : Text) : List Token := (scan source text).stream

end Kettle
