/-
Scanning a source line by line. What the scan carries along, the column, the last rune and the last token, is forgotten
behind a line feed that stands outside of strings: from there on it is a scan of a new source, only further down. So the
tokens of a source are those of its first lines and those of the others, each scanned by themselves.
-/
import Kettle.Proofs.Token.Position

namespace Kettle

/-- Behind a text that ends with a line feed, the cursor is at the start of a line. -/
theorem Cursor.advance_feed (s : Text) :
    start.advance (s ++ "\n") = start.down ((Position.behind [] (s ++ "\n")).line - 1) := by
  have hfeed : Text.ofString "\n" = [('\n' : Rune)] := rfl
  have hreturn : ¬ ('\n' : Rune) = '\r' := by decide
  have hcolumn : (Text.lastLine (s ++ [('\n' : Rune)])).width = 0 := by
    rw [Text.lastLine_concat, if_pos (.inl rfl)]
    rfl
  have hlast : decide ((s ++ [('\n' : Rune)]).getLast? = some ('\r' : Rune)) = false := by simp [hreturn]
  rw [hfeed, advance_start, hcolumn, hlast]
  simp only [Position.behind, start, down, Cursor.mk.injEq, and_true]
  omega

namespace Scan

theorem stream_relocate (φ : Position → Position) (s : Scan) :
    (s.relocate φ).stream = s.stream.map (Token.relocate φ) := by
  have hending : (s.ending.relocate φ).tokens = s.ending.tokens.map (Token.relocate φ) := by
    cases s.ending <;> rfl
  simp [stream, relocate, hending]

theorem stream_prepend (ts : List Token) (s : Scan) : (s.prepend ts).stream = ts ++ s.stream := by
  simp [stream, prepend]

end Scan

/-- Lines are scanned apart. If a text can be scanned to its end, then the tokens of the text, a line feed and any more
text are those of the text and the line feed, without the end of the source, and then all those of the other text, its
fault and its end included, further down by as many lines as there are before it. -/
theorem lines_scanned_apart {source s : Text} {pos : Position} (h : (scan source s).ending = .finished pos) (u : Text) :
    let line := (Position.behind source (s ++ "\n")).line
    (tokenStream source (s ++ "\n")).getLast? = some ⟨.eof, [], ⟨line, 1, source⟩⟩ ∧
      tokenStream source (s ++ ("\n" ++ u)) = (tokenStream source (s ++ "\n")).dropLast ++
        (tokenStream source u).map (Token.relocate (Position.down (line - 1))) := by
  intro line
  have hcursor : (Cursor.start.advance s).step '\n' = Cursor.start.down (line - 1) :=
    (Cursor.advance_append .start s "\n").symm.trans (Cursor.advance_feed s)
  obtain ⟨seps, -, hseps⟩ := Scan.scanFrom_feed source (Scan.lastKind none (scan source s).tokens) hcursor
  have hscan : ∀ u, tokenStream source (s ++ ("\n" ++ u)) = (scan source s).tokens ++ seps ++
      (tokenStream source u).map (Token.relocate (Position.down (line - 1))) := by
    intro u
    have hjoined : scan source (s ++ ("\n" ++ u)) =
        ((scan source u).relocate (Position.down (line - 1))).prepend ((scan source s).tokens ++ seps) := by
      rw [← Scan.prepend_prepend, ← hseps]
      exact Scan.scanFrom_append h u
    rw [tokenStream, hjoined, Scan.stream_prepend, Scan.stream_relocate, tokenStream]
  -- the end of the empty text is the end of the source that ends with the line feed
  have hend : tokenStream source (s ++ "\n") = (scan source s).tokens ++ seps ++ [⟨.eof, [], ⟨line, 1, source⟩⟩] := by
    have hline : 1 + (line - 1) = line := by
      simp only [line, Position.behind]
      omega
    have hnil : (tokenStream source []).map (Token.relocate (Position.down (line - 1))) =
        [⟨.eof, [], ⟨line, 1, source⟩⟩] := by
      rw [tokenStream, scan, Scan.scanFrom_nil]
      simp [Scan.stream, Ending.tokens, Token.relocate, Position.down, Cursor.start, Cursor.position, hline]
    rw [← hnil, ← hscan, List.append_nil]
  rw [hend, hscan]
  simp

/-- A carriage return before the line feed, a comment at the end of the first line, and behind it a blank line and a
string that is not closed. -/
theorem lines_scanned_apart_fault :
    (scan [] "x # one\r").ending = .finished ⟨2, 1, []⟩ ∧
      tokenStream [] ("x # one\r" ++ ("\n" ++ "\n'two")) =
        (tokenStream [] ("x # one\r" ++ "\n")).dropLast ++
          [⟨.error, "unclosed single quote string", ⟨3, 1, []⟩⟩, ⟨.eof, [], ⟨3, 1, []⟩⟩] := by
  have hscan : (scan [] "x # one\r").ending = .finished ⟨2, 1, []⟩ := by decide +kernel
  refine ⟨hscan, (lines_scanned_apart hscan _).2.trans (congrArg _ ?_)⟩
  decide +kernel

end Kettle
