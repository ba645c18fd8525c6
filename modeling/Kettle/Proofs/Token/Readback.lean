/-
Reading tokens back. The texts of the tokens of a source, comments left out, are written with a blank
between any two; scanning that gives tokens of the same kinds and texts. A line break that ended a statement
ends it again, because the last token before it is the same.
-/
import Kettle.Proofs.Token.Layout

namespace Kettle

namespace Token

/-- What is kept of a token when its place is forgotten. -/
def label (t : Token) : Kind × Text := (t.kind, t.text)

/-- The tokens that are no comments. -/
def significant (ts : List Token) : List Token := ts.filter fun t => !t.kind.isComment

theorem significant_cons (t : Token) (ts : List Token) :
    significant (t :: ts) = if t.kind.isComment then significant ts else t :: significant ts := by
  cases h : t.kind.isComment <;> simp [significant, h]

end Token

namespace Scan

open Token (label significant)

variable {source : Text} {last : Option Kind} {labels : List (Kind × Text)}

/-- Kinds and texts of tokens that can follow a token of the kind `last`: each text spells a token of its
kind, or it is a line break right where a statement can end. -/
inductive Legible : Option Kind → List (Kind × Text) → Prop where
  | nil {last : Option Kind} : Legible last []
  | lexeme {last : Option Kind} {kind : Kind} {text : Text} {labels : List (Kind × Text)}
      (hspells : Lexeme.Spells kind text) (hcomment : kind.isComment = false) (h : Legible (some kind) labels) :
      Legible last ((kind, text) :: labels)
  | lineBreak {last : Option Kind} {r : Rune} {labels : List (Kind × Text)} (hr : Lexeme.isBreak r = true)
      (hlast : last.any Kind.endsStatement = true) (h : Legible (some .separator) labels) :
      Legible last ((.separator, [r]) :: labels)

/-- The tokens of every scan are legible once the comments are left out. -/
theorem scanFrom_legible (source text : Text) : ∀ (cursor : Cursor) (last : Option Kind),
    Legible last ((significant (scanFrom source cursor last text).tokens).map label) := by
  induction text using inductionOn with
  | nil =>
    intro cursor last
    rw [scanFrom_nil]
    exact .nil
  | space r rest hspace ih =>
    intro cursor last
    rw [scanFrom_space hspace]
    split
    · rename_i hbreak
      obtain ⟨hr, hlast⟩ := Bool.and_eq_true_iff.1 hbreak
      exact .lineBreak hr hlast (ih (cursor.step r) (some .separator))
    · exact ih (cursor.step r) last
  | error r rest cause hspace hread =>
    intro cursor last
    rw [scanFrom_error hspace hread]
    exact .nil
  | lexeme r rest l hspace hread ih =>
    intro cursor last
    have htaken := Lexeme.taken_of_read hspace hread
    have hrest := ih (cursor.advance (r :: l.more)) (if l.kind.isComment then last else some l.kind)
    rw [scanFrom_lexeme hspace hread]
    show Legible last ((significant (_ :: _)).map label)
    rw [Token.significant_cons]
    cases hcomment : l.kind.isComment with
    | true => simpa [hcomment] using hrest
    | false =>
      rw [hcomment] at hrest
      exact .lexeme htaken.spells hcomment hrest

/-- From every place behind a token of the kind `last`, a text is scanned to its end as tokens of these kinds
and texts. -/
def ReadsAs (source : Text) (last : Option Kind) (text : Text) (labels : List (Kind × Text)) : Prop :=
  ∀ cursor : Cursor, ∃ ts pos, scanFrom source cursor last text = ⟨ts, .finished pos⟩ ∧ ts.map label = labels

theorem readsAs_nil (source : Text) (last : Option Kind) : ReadsAs source last [] [] :=
  fun cursor => ⟨[], _, scanFrom_nil source cursor last, rfl⟩

theorem ReadsAs.blank {text : Text} (h : ReadsAs source last text labels) :
    ReadsAs source last ((' ' : Rune) :: text) labels := by
  intro cursor
  have hblank : Lexeme.isBreak ' ' = false := by decide
  rw [scanFrom_space (by decide), hblank, Bool.false_and, if_neg (by decide)]
  exact h _

theorem ReadsAs.lexeme {kind : Kind} {text rest : Text} (hspells : Lexeme.Spells kind text)
    (hcomment : kind.isComment = false) (hends : Lexeme.Ends kind text rest)
    (h : ReadsAs source (some kind) rest labels) : ReadsAs source last (text ++ rest) ((kind, text) :: labels) := by
  intro cursor
  obtain ⟨r, more, rfl⟩ := List.exists_cons_of_ne_nil hspells.ne_nil
  obtain ⟨ts, pos, hscan, hts⟩ := h (cursor.advance (r :: more))
  have hlast : (if kind.isComment then last else some kind) = some kind := by simp [hcomment]
  refine ⟨⟨kind, r :: more, cursor.position source⟩ :: ts, pos, ?_, by rw [List.map_cons, hts]; rfl⟩
  rw [List.cons_append, scanFrom_lexeme hspells.isSpace_head (Lexeme.read_of_spells hspells hends), hlast, hscan]
  rfl

theorem ReadsAs.lineBreak {r : Rune} {rest : Text} (hr : Lexeme.isBreak r = true)
    (hlast : last.any Kind.endsStatement = true) (h : ReadsAs source (some .separator) rest labels) :
    ReadsAs source last (r :: rest) ((.separator, [r]) :: labels) := by
  intro cursor
  obtain ⟨ts, pos, hscan, hts⟩ := h (cursor.step r)
  have hspace : Lexeme.isSpace r = true := Lexeme.isSpace_of_isBreak hr
  refine ⟨⟨.separator, [r], cursor.position source⟩ :: ts, pos, ?_, by rw [List.map_cons, hts]; rfl⟩
  rw [scanFrom_space hspace, hr, hlast, hscan]
  rfl

/-- What comes behind the first of some texts with blanks between them. -/
def behindFirst (texts : List Text) : Text := if texts = [] then [] else (' ' : Rune) :: Text.join " " texts

theorem join_cons (text : Text) (texts : List Text) : Text.join " " (text :: texts) = text ++ behindFirst texts := by
  cases texts with
  | nil => simp [Text.join, behindFirst]
  | cons next texts =>
    rw [Text.join]
    · simp [Text.ofString, behindFirst]
    · simp

theorem ends_behindFirst {kind : Kind} (h : kind.isComment = false) (text : Text) (texts : List Text) :
    Lexeme.Ends kind text (behindFirst texts) := by
  unfold behindFirst
  split
  · simp [Lexeme.Ends]
  · exact ends_blank h _ _

theorem ReadsAs.behindFirst (h : ReadsAs source last (Text.join " " (labels.map Prod.snd)) labels) :
    ReadsAs source last (behindFirst (labels.map Prod.snd)) labels := by
  unfold Scan.behindFirst
  by_cases hnil : labels = []
  · subst hnil
    exact readsAs_nil source last
  · rw [if_neg (by simpa using hnil)]
    exact h.blank

/-- Legible texts with blanks between them are read as what they are: the induction goes along the tokens and
carries the kind of the last one, which tells a line break that ends a statement from a blank. -/
theorem Legible.readsAs (h : Legible last labels) (source : Text) :
    ReadsAs source last (Text.join " " (labels.map Prod.snd)) labels := by
  induction h with
  | nil => exact readsAs_nil source _
  | lexeme hspells hcomment _ ih =>
    rw [List.map_cons, join_cons]
    exact .lexeme hspells hcomment (ends_behindFirst hcomment _ _) ih.behindFirst
  | lineBreak hr hlast _ ih =>
    rw [List.map_cons, join_cons]
    exact .lineBreak hr hlast ih.behindFirst

end Scan

/-- The texts of the tokens of a source, comments left out, with a blank between any two of them, are scanned
as tokens of exactly the same kinds and texts, and then comes the end. -/
theorem token_texts_read_back (source source' text : Text) :
    (tokenStream source' (Text.join " " ((Token.significant (scan source text).tokens).map Token.text))).map Token.label =
      (Token.significant (scan source text).tokens).map Token.label ++ [(.eof, [])] := by
  have hlegible := Scan.scanFrom_legible source text .start none
  obtain ⟨ts, pos, hscan, hts⟩ := hlegible.readsAs source' .start
  have htexts : ((Token.significant (scan source text).tokens).map Token.label).map Prod.snd =
      (Token.significant (scan source text).tokens).map Token.text := by
    rw [List.map_map]
    rfl
  have hstream : tokenStream source' (Text.join " " ((Token.significant (scan source text).tokens).map Token.text)) =
      ts ++ [⟨.eof, [], pos⟩] := by
    rw [← htexts]
    exact congrArg Scan.stream hscan
  rw [hstream, List.map_append, hts]
  rfl

end Kettle
