/-
The layout of a source. A source is blanks and tokens in turn, up to its end or to a place where no
token can be taken: nothing of it is lost, and every token is the longest one at its place. A line
break is a token of its own where it is the first one after a token that can end a statement.
-/
import Kettle.Proofs.Token.Append
import Kettle.Proofs.Token.Longest

namespace Kettle

/-- A stretch of a source: blanks, and the token after them. -/
structure Piece where
  gap : Text
  token : Token

namespace Piece

/-- The text of pieces. -/
def weave (ps : List Piece) : Text := ps.flatMap fun p => p.gap ++ p.token.text

/-- The tokens of pieces. -/
def tokens (ps : List Piece) : List Token := ps.map Piece.token

@[simp] theorem weave_nil : weave [] = [] := rfl

@[simp] theorem weave_cons (p : Piece) (ps : List Piece) : weave (p :: ps) = p.gap ++ (p.token.text ++ weave ps) := by
  simp [weave]

theorem weave_append (ps qs : List Piece) : weave (ps ++ qs) = weave ps ++ weave qs := by
  simp [weave]

@[simp] theorem tokens_cons (p : Piece) (ps : List Piece) : tokens (p :: ps) = p.token :: tokens ps := rfl

end Piece

namespace Scan

open Piece (weave)

/-- Blanks that leave no token: where the last token can end a statement, none of them breaks the line. -/
def Dropped (last : Option Kind) (gap : Text) : Prop :=
  ∀ r ∈ gap, Lexeme.isSpace r = true ∧ (Lexeme.isBreak r && last.any Kind.endsStatement) = false

/-- A token stands before the rest of a source: it is taken there, or it is the line break that ends a
statement. -/
inductive Stands (last : Option Kind) : Token → Text → Prop where
  | lexeme {t : Token} {rest : Text} (h : Lexeme.Taken t.kind t.text rest) : Stands last t rest
  | lineBreak {r : Rune} {pos : Position} {rest : Text} (hr : Lexeme.isBreak r = true)
      (hlast : last.any Kind.endsStatement = true) : Stands last ⟨.separator, [r], pos⟩ rest

/-- A text is laid out as pieces, a tail of blanks, and what is left of it. -/
structure Layout (last : Option Kind) (text : Text) (pieces : List Piece) (tail rest : Text) : Prop where
  text_eq : text = weave pieces ++ (tail ++ rest)
  gaps : ∀ before p after, pieces = before ++ p :: after → Dropped (lastKind last (Piece.tokens before)) p.gap
  stands : ∀ before p after, pieces = before ++ p :: after →
    Stands (lastKind last (Piece.tokens before)) p.token (weave after ++ (tail ++ rest))
  tail : Dropped (lastKind last (Piece.tokens pieces)) tail

variable {source text gap tail rest : Text} {last : Option Kind} {pieces : List Piece} {t : Token}

/-! ## Building a layout -/

theorem dropped_nil (last : Option Kind) : Dropped last [] := by simp [Dropped]

theorem Dropped.concat {r : Rune} (h : Dropped last gap) (hspace : Lexeme.isSpace r = true)
    (hbreak : ¬ (Lexeme.isBreak r && last.any Kind.endsStatement) = true) : Dropped last (gap ++ [r]) := by
  intro c hc
  rcases List.mem_append.1 hc with hc | hc
  · exact h c hc
  · obtain rfl := List.mem_singleton.1 hc
    exact ⟨hspace, by simpa using hbreak⟩

theorem Layout.nil (h : Dropped last gap) (rest : Text) : Layout last (gap ++ rest) [] gap rest :=
  ⟨rfl, by simp, by simp, h⟩

theorem Layout.cons (hgap : Dropped last gap) (ht : Stands last t text)
    (h : Layout (if t.kind.isComment then last else some t.kind) text pieces tail rest) :
    Layout last (gap ++ (t.text ++ text)) (⟨gap, t⟩ :: pieces) tail rest := by
  refine ⟨?_, ?_, ?_, h.tail⟩
  · rw [h.text_eq]
    simp
  · intro before p after hsplit
    cases before with
    | nil => cases hsplit; exact hgap
    | cons q before => cases hsplit; exact h.gaps before p after rfl
  · intro before p after hsplit
    cases before with
    | nil =>
      cases hsplit
      rw [← h.text_eq]
      exact ht
    | cons q before => cases hsplit; exact h.stands before p after rfl

/-! ## The layout that a scan follows -/

/-- A scan that started at a cursor followed a layout: its tokens are those of the pieces, each at the
position of the text before it, and it ended with the layout. -/
structure Follows (source : Text) (c : Cursor) (s : Scan) (pieces : List Piece) (tail rest : Text) : Prop where
  tokens_eq : s.tokens = Piece.tokens pieces
  pos : ∀ before p after, pieces = before ++ p :: after →
    p.token.pos = (c.advance (weave before ++ p.gap)).position source
  ending : (rest = [] ∧ s.ending = .finished ((c.advance (weave pieces ++ tail)).position source)) ∨
    ∃ cause, Lexeme.Stuck cause rest ∧ s.ending = .failed cause ((c.advance (weave pieces ++ tail)).position source)

theorem Follows.cons {c : Cursor} {s : Scan} (ht : t.pos = (c.advance gap).position source)
    (h : Follows source (c.advance (gap ++ t.text)) s pieces tail rest) :
    Follows source c (Scan.cons t s) (⟨gap, t⟩ :: pieces) tail rest := by
  have hadvance : ∀ u, c.advance (gap ++ (t.text ++ u)) = (c.advance (gap ++ t.text)).advance u := by
    intro u
    rw [← Cursor.advance_append, List.append_assoc]
  refine ⟨?_, ?_, ?_⟩
  · rw [Piece.tokens_cons, ← h.tokens_eq]
    rfl
  · intro before p after hsplit
    cases before with
    | nil => cases hsplit; exact ht
    | cons q before =>
      cases hsplit
      simp only [Piece.weave_cons, List.append_assoc]
      rw [hadvance]
      exact h.pos before p after rfl
  · simp only [Piece.weave_cons, List.append_assoc]
    rw [hadvance]
    exact h.ending

/-- A scan follows a layout of its text; `gap` holds the blanks since the last token. -/
theorem scanFrom_layout (source text : Text) : ∀ (c : Cursor) (last : Option Kind) (gap : Text), Dropped last gap →
    ∃ pieces tail rest, Layout last (gap ++ text) pieces tail rest ∧
      Follows source c (scanFrom source (c.advance gap) last text) pieces tail rest := by
  induction text using inductionOn with
  | nil =>
    intro c last gap hgap
    refine ⟨[], gap, [], .nil hgap [], ?_⟩
    rw [scanFrom_nil]
    exact ⟨rfl, by simp, .inl ⟨rfl, rfl⟩⟩
  | space r text hspace ih =>
    intro c last gap hgap
    have hstep : (c.advance gap).step r = c.advance (gap ++ [r]) := by rw [Cursor.advance_append]; rfl
    rw [scanFrom_space hspace, hstep]
    split
    · rename_i hbreak
      obtain ⟨hr, hlast⟩ := Bool.and_eq_true_iff.1 hbreak
      obtain ⟨pieces, tail, rest, hlayout, hfollows⟩ := ih (c.advance (gap ++ [r])) (some .separator) [] (dropped_nil _)
      exact ⟨_, tail, rest, hlayout.cons hgap (.lineBreak hr hlast), hfollows.cons rfl⟩
    · rename_i hbreak
      obtain ⟨pieces, tail, rest, hlayout, hfollows⟩ := ih c last (gap ++ [r]) (hgap.concat hspace hbreak)
      exact ⟨pieces, tail, rest, by simpa using hlayout, hfollows⟩
  | error r text cause hspace hread =>
    intro c last gap hgap
    have hstuck : Lexeme.Stuck cause (r :: text) := Lexeme.stuck_of_read hspace hread
    refine ⟨[], gap, r :: text, .nil hgap _, ?_⟩
    rw [scanFrom_error hspace hread]
    exact ⟨rfl, by simp, .inr ⟨cause, hstuck, rfl⟩⟩
  | lexeme r text l hspace hread ih =>
    intro c last gap hgap
    obtain ⟨pieces, tail, rest, hlayout, hfollows⟩ := ih (c.advance (gap ++ r :: l.more))
      (if l.kind.isComment then last else some l.kind) [] (dropped_nil _)
    have htext : r :: text = r :: l.more ++ l.rest := by rw [List.cons_append, Lexeme.read_append hread]
    rw [scanFrom_lexeme hspace hread, ← Cursor.advance_append, htext]
    have hstands : Stands last ⟨l.kind, r :: l.more, (c.advance gap).position source⟩ l.rest :=
      .lexeme (Lexeme.taken_of_read hspace hread)
    exact ⟨_, tail, rest, hlayout.cons hgap hstands, hfollows.cons rfl⟩

theorem Stands.kind {rest : Text} (h : Stands last t rest) : t.text ≠ [] ∧ t.kind ≠ .error ∧ t.kind ≠ .eof := by
  cases h with
  | lexeme h =>
    refine ⟨h.spells.ne_nil, ?_⟩
    have hsingles : ∀ d ∈ Lexeme.singles, d.2 ≠ .error ∧ d.2 ≠ .eof := by decide
    have hdoubles : ∀ d ∈ Lexeme.doubles, d.2 ≠ .error ∧ d.2 ≠ .eof := by decide
    have hspells := h.spells
    generalize t.kind = kind, t.text = text at hspells
    cases hspells with
    | @string quote => cases quote <;> simp [Quote.kind]
    | single h => exact hsingles _ h
    | double h => exact hdoubles _ h
    | _ => simp
  | lineBreak => simp

/-- A blank ends every token, but a comment only if it breaks the line. -/
theorem ends_space {kind : Kind} {r : Rune} (hspace : Lexeme.isSpace r = true)
    (hcomment : kind.isComment = true → Lexeme.isBreak r = true) (text rest : Text) :
    Lexeme.Ends kind text (r :: rest) := by
  have hdoubles : ∀ d ∈ Lexeme.doubles, Lexeme.isSpace d.1.2 = false := by decide
  have hword : Lexeme.continuesWord r = false ∧ Lexeme.startsWord r = false ∧ r.isAsciiDigit = false := by
    simp only [Lexeme.isSpace, Bool.or_eq_true, decide_eq_true_eq] at hspace
    rcases hspace with ((((rfl | rfl) | rfl) | rfl) | rfl) | rfl <;> decide
  have hne : ∀ {c : Rune}, Lexeme.isSpace c = false → r ≠ c := Lexeme.ne_of_class hspace
  rintro next ⟨⟩
  refine ⟨fun _ => hword.1, fun _ => ⟨hword.2.2, hne (by decide), hword.2.1⟩, hcomment, fun c _ => ⟨fun op hop => ?_, ?_⟩⟩
  · exact hne (hdoubles _ hop) rfl
  · rintro ⟨-, hslash⟩
    exact hne (by decide) hslash

theorem ends_blank {kind : Kind} (h : kind.isComment = false) (text rest : Text) :
    Lexeme.Ends kind text ((' ' : Rune) :: rest) :=
  ends_space (by decide) (by simp [h]) text rest

end Scan

/-- A source is blanks and tokens in turn, and nothing else up to its end, or up to the first place
where no token can be taken. Every token is the longest one at its place, or a line break that ends a
statement; the stream of tokens ends with one empty token, and with an error before it exactly if
something of the source is left. -/
theorem scan_lossless_longest (source text : Text) : ∃ pieces tail rest,
    Scan.Layout none text pieces tail rest ∧
    (∀ p ∈ pieces, p.token.text ≠ [] ∧ p.token.kind ≠ .error ∧ p.token.kind ≠ .eof) ∧
    ((rest = [] ∧ ∃ pos, tokenStream source text = Piece.tokens pieces ++ [⟨.eof, [], pos⟩]) ∨
      (rest ≠ [] ∧ ∃ cause pos, Lexeme.Stuck cause rest ∧
        tokenStream source text = Piece.tokens pieces ++ [⟨.error, cause.message, pos⟩, ⟨.eof, [], pos⟩])) := by
  obtain ⟨pieces, tail, rest, hlayout, hfollows⟩ := Scan.scanFrom_layout source text .start none [] (Scan.dropped_nil _)
  refine ⟨pieces, tail, rest, hlayout, fun p hp => ?_, ?_⟩
  · obtain ⟨before, after, hsplit⟩ := List.append_of_mem hp
    exact (hlayout.stands before p after hsplit).kind
  · have hstream : tokenStream source text = Piece.tokens pieces ++ (scan source text).ending.tokens := by
      rw [← hfollows.tokens_eq]
      rfl
    rcases hfollows.ending with ⟨hrest, hending⟩ | ⟨cause, hstuck, hending⟩
    · exact .inl ⟨hrest, _, hstream.trans (congrArg _ (congrArg Ending.tokens hending))⟩
    · exact .inr ⟨hstuck.ne_nil, cause, _, hstuck, hstream.trans (congrArg _ (congrArg Ending.tokens hending))⟩

end Kettle
