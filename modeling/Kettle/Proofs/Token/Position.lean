/-
Where tokens are. The position behind a text is told by the text alone: the line by the line breaks in
it, the column by the width of what is behind the last one. The scan carries a cursor along instead, and
every token of it, the last ones included, is at the position behind the text before it. Positions grow
from token to token, because no token starts between a carriage return and its line feed.
-/
import Kettle.Proofs.Token.Layout
import Mathlib.Data.List.DropRight

namespace Kettle

/-! ## Positions told by the text -/

namespace Text

/-- The number of line feeds that no carriage return stands directly before. -/
def loneFeeds (t : Text) : Nat :=
  (List.range t.length).countP fun i => t[i]? = some ('\n' : Rune) && !(0 < i && t[i - 1]? = some ('\r' : Rune))

/-- The part of a text behind its last line break. -/
def lastLine (t : Text) : Text := t.rtakeWhile fun r => r ≠ '\n' && r ≠ '\r'

/-- The width of a text on one line, with tab stops every four columns. -/
def width (t : Text) : Nat := t.foldl (fun w (r : Rune) => if r = '\t' then (w / 4 + 1) * 4 else w + 1) 0

theorem loneFeeds_concat (t : Text) (r : Rune) :
    loneFeeds (t ++ [r]) = loneFeeds t + if r = '\n' ∧ t.getLast? ≠ some ('\r' : Rune) then 1 else 0 := by
  have hbefore : ∀ i < t.length, (t ++ [r])[i]? = t[i]? := fun i hi => List.getElem?_append_left hi
  have hlast : (0 < t.length && (t ++ [r])[t.length - 1]? = some ('\r' : Rune)) =
      decide (t.getLast? = some ('\r' : Rune)) := by
    cases t with
    | nil => rfl
    | cons c t =>
      rw [hbefore _ (by simp), List.getLast?_eq_getElem?]
      simp
  unfold loneFeeds
  rw [List.length_append, List.length_singleton, List.range_succ, List.countP_append]
  congr 1
  · refine List.countP_congr fun i hi => ?_
    rw [List.mem_range] at hi
    rw [hbefore i hi, hbefore (i - 1) (by omega)]
  · rw [List.countP_singleton, hlast]
    simp

theorem lastLine_concat (t : Text) (r : Rune) :
    lastLine (t ++ [r]) = if r = '\n' ∨ r = '\r' then [] else lastLine t ++ [r] := by
  unfold lastLine
  rw [List.rtakeWhile_concat]
  by_cases h : r = '\n' ∨ r = '\r'
  · rw [if_pos h, if_neg (by simpa [or_iff_not_imp_left] using h)]
  · rw [if_neg h, if_pos (by simpa using h)]

theorem width_concat (t : Text) (r : Rune) :
    width (t ++ [r]) = if r = '\t' then (width t / 4 + 1) * 4 else width t + 1 := by
  simp [width]

end Text

/-- The position behind a text that starts a source. -/
def Position.behind (source before : Text) : Position :=
  ⟨1 + before.count ('\r' : Rune) + before.loneFeeds, 1 + before.lastLine.width, source⟩

theorem Position.before_iff {p q : Position} :
    p.before q = true ↔ p.line < q.line ∨ p.line = q.line ∧ p.column < q.column := by
  simp [Position.before]

namespace Cursor

/-- The cursor reaches the position behind the text it has passed. -/
theorem advance_start (t : Text) : start.advance t =
    ⟨1 + t.count ('\r' : Rune) + t.loneFeeds, 1 + t.lastLine.width, t.getLast? = some ('\r' : Rune)⟩ := by
  have htab : ¬ (('\t' : Rune) = '\n') ∧ ¬ (('\t' : Rune) = '\r') := by decide
  have hfeed : ¬ (('\n' : Rune) = '\t') ∧ ¬ (('\n' : Rune) = '\r') := by decide
  have hreturn : ¬ (('\r' : Rune) = '\t') ∧ ¬ (('\r' : Rune) = '\n') := by decide
  induction t using List.reverseRecOn with
  | nil => simp [start, Text.loneFeeds, Text.lastLine, Text.width]
  | append_singleton t r ih =>
    rw [advance_append, ih, advance_cons, advance_nil, step, Text.loneFeeds_concat, Text.lastLine_concat,
      List.count_append, List.getLast?_append, List.getLast?_singleton]
    by_cases h₁ : r = '\t'
    · subst h₁
      simp [htab, Text.width_concat, tabWidth]
      omega
    by_cases h₂ : r = '\n'
    · subst h₂
      by_cases hr : t.getLast? = some ('\r' : Rune)
      · -- the carriage return has broken the line already
        obtain ⟨t', rfl⟩ := List.getLast?_eq_some_iff.1 hr
        simp [hfeed, Text.lastLine_concat]
      · simp [hfeed, hr, Text.width]
        omega
    by_cases h₃ : r = '\r'
    · subst h₃
      simp [hreturn, Text.width]
      omega
    · simp [h₁, h₂, h₃, Text.width_concat]
      omega

theorem position_advance_start (source t : Text) : (start.advance t).position source = .behind source t := by
  rw [advance_start]
  rfl

/-! ## Positions grow -/

/-- A cursor is not behind another one. -/
def Le (c c' : Cursor) : Prop := c.line < c'.line ∨ c.line = c'.line ∧ c.column ≤ c'.column

theorem step_le (c : Cursor) (r : Rune) : c.Le (c.step r) := by
  unfold Le step tabWidth
  split_ifs
  all_goals
    dsimp only
    omega

theorem advance_le (c : Cursor) (t : Text) : c.Le (c.advance t) := by
  induction t generalizing c with
  | nil => exact .inr ⟨rfl, Nat.le_refl _⟩
  | cons r t ih =>
    have hstep := step_le c r
    have hrest := ih (c.step r)
    rw [advance_cons]
    unfold Le at *
    omega

/-- Only a line feed that ends a carriage return leaves the cursor where it is. -/
theorem step_before {c : Cursor} {r : Rune} (h : ¬ (r = '\n' ∧ c.afterReturn = true)) (source : Text) :
    (c.position source).before ((c.step r).position source) = true := by
  have hfeed : ¬ (r = '\n' && c.afterReturn) = true := by simpa using h
  rw [Position.before_iff, step, if_neg hfeed]
  unfold position tabWidth
  split_ifs
  all_goals
    dsimp only
    omega

theorem advance_before {c : Cursor} {t : Text} (ht : t ≠ [])
    (h : ¬ (t.head? = some ('\n' : Rune) ∧ c.afterReturn = true)) (u source : Text) :
    (c.position source).before ((c.advance (t ++ u)).position source) = true := by
  obtain ⟨r, t, rfl⟩ := List.exists_cons_of_ne_nil ht
  have hstep : (c.position source).before ((c.step r).position source) = true := step_before (by simpa using h) source
  have hrest := advance_le (c.step r) (t ++ u)
  rw [List.cons_append, advance_cons]
  rw [Position.before_iff] at hstep ⊢
  simp only [position, Le] at hstep hrest ⊢
  omega

end Cursor

/-! ## No token starts inside a line break -/

namespace Lexeme

/-- No token that is taken ends with a carriage return. -/
theorem Spells.getLast_ne {kind : Kind} {text : Text} (h : Spells kind text) : text.getLast? ≠ some ('\r' : Rune) := by
  have hsingles : ∀ s ∈ singles, s.1 ≠ '\r' := by decide
  have hdoubles : ∀ d ∈ doubles, d.1.2 ≠ '\r' := by decide
  have hclass : ∀ {p : Rune → Bool} {t : Text}, (∀ c ∈ t, p c = true) → p '\r' = false →
      t.getLast? ≠ some ('\r' : Rune) := by
    intro p t ht hp hlast
    exact ne_of_class (ht _ (List.mem_of_getLast? hlast)) hp rfl
  cases h with
  | word hr hmore => exact hclass (p := continuesWord) (by simpa using ⟨by simp [continuesWord, hr], hmore⟩) (by decide)
  | number hr hmore => exact hclass (p := inNumber) (by simpa using ⟨by simp [inNumber, hr], hmore⟩) (by decide)
  | @string quote body =>
    rw [← List.cons_append, List.getLast?_concat]
    cases quote <;> decide
  | hash hmore => exact hclass (p := fun c => !isBreak c) (by simpa using ⟨by decide, hmore⟩) (by decide)
  | slash hmore =>
    exact hclass (p := fun c => !isBreak c) (by simpa [show isBreak '/' = false by decide] using hmore) (by decide)
  | single h => simpa using hsingles _ h
  | double h => simpa using hdoubles _ h

end Lexeme

namespace Scan

open Piece (weave)

variable {text tail rest : Text} {pieces before after : List Piece} {p : Piece}

/-- The token before a line break that ends a statement does not end with a carriage return. -/
theorem Layout.getLast_weave (h : Layout none text pieces tail rest) (hsplit : pieces = before ++ after)
    (hlast : (lastKind none (Piece.tokens before)).any Kind.endsStatement = true) :
    (weave before).getLast? ≠ some ('\r' : Rune) := by
  rcases List.eq_nil_or_concat' before with rfl | ⟨before, q, rfl⟩
  · cases hlast
  · have hq := h.stands before q after (by simp [hsplit])
    generalize htoken : q.token = t at hq
    have hweave : weave (before ++ [q]) = weave before ++ q.gap ++ t.text := by
      simp [Piece.weave_append, htoken]
    cases hq with
    | lexeme hq =>
      have hne : t.text ≠ [] := hq.spells.ne_nil
      rw [hweave, List.getLast?_append_of_ne_nil _ hne]
      exact hq.spells.getLast_ne
    | lineBreak =>
      simp [lastKind, Piece.tokens, htoken, Kind.isComment, Kind.endsStatement, Kind.isString] at hlast

/-- No token starts with a line feed that ends a carriage return. -/
theorem Layout.whole_breaks (h : Layout none text pieces tail rest) (hsplit : pieces = before ++ p :: after) :
    ¬ (p.token.text.head? = some ('\n' : Rune) ∧ (weave before ++ p.gap).getLast? = some ('\r' : Rune)) := by
  rintro ⟨hhead, hlast⟩
  have hp := h.stands before p after hsplit
  generalize p.token = t at hp hhead
  cases hp with
  | lexeme hp =>
    have hspells := hp.spells
    obtain ⟨r, more, htext⟩ := List.exists_cons_of_ne_nil hspells.ne_nil
    rw [htext] at hhead hspells
    cases hhead
    exact absurd hspells.isSpace_head (by decide)
  | lineBreak _ hends =>
    -- the carriage return would have been the line break that ends the statement
    cases hgap : p.gap.getLast? with
    | none =>
      rw [List.getLast?_eq_none_iff.1 hgap, List.append_nil] at hlast
      exact h.getLast_weave hsplit hends hlast
    | some r =>
      rw [List.getLast?_append, hgap] at hlast
      cases hlast
      have hdropped := (h.gaps before p after hsplit _ (List.mem_of_getLast? hgap)).2
      rw [hends] at hdropped
      exact absurd hdropped (by decide)

theorem pairwise_of_split {α : Type} {R : α → α → Prop} {l : List α}
    (h : ∀ before a mid b after, l = before ++ a :: (mid ++ b :: after) → R a b) : l.Pairwise R := by
  induction l with
  | nil => exact .nil
  | cons a l ih =>
    refine .cons (fun b hb => ?_) (ih fun before c mid d after hl => h (a :: before) c mid d after (by rw [hl]; rfl))
    obtain ⟨mid, after, rfl⟩ := List.append_of_mem hb
    exact h [] a mid b after rfl

/-- If every token is where the text before it ends, positions grow from token to token. -/
theorem Layout.positions_grow {source : Text} (h : Layout none text pieces tail rest)
    (hpos : ∀ before p after, pieces = before ++ p :: after →
      p.token.pos = (Cursor.start.advance (weave before ++ p.gap)).position source) :
    (Piece.tokens pieces).Pairwise fun t u => t.pos.before u.pos = true := by
  refine List.pairwise_map.2 (pairwise_of_split fun before p mid q after hsplit => ?_)
  have hq : q.token.pos = ((Cursor.start.advance (weave before ++ p.gap)).advance
      (p.token.text ++ (weave mid ++ q.gap))).position source := by
    rw [hpos (before ++ p :: mid) q after (by simp [hsplit]), ← Cursor.advance_append]
    simp [Piece.weave_append]
  rw [hpos before p _ hsplit, hq]
  refine Cursor.advance_before (h.stands before p _ hsplit).kind.1 ?_ _ source
  rw [Cursor.advance_start]
  simpa using h.whole_breaks hsplit

end Scan

/-- The positions of the tokens of a source grow. -/
theorem scan_positions_grow (source text : Text) :
    (scan source text).tokens.Pairwise fun t u => t.pos.before u.pos = true := by
  obtain ⟨pieces, tail, rest, hlayout, hfollows⟩ := Scan.scanFrom_layout source text .start none [] (Scan.dropped_nil _)
  rw [show (scan source text).tokens = Piece.tokens pieces from hfollows.tokens_eq]
  exact hlayout.positions_grow hfollows.pos

/-- Every token is at the position behind the text before it, the error at the position of the place where
no token can be taken, and the end at the end of the source or at the error. The positions of the
ordinary tokens grow. -/
theorem token_positions_exact (source text : Text) : ∃ pieces tail rest,
    Scan.Layout none text pieces tail rest ∧
    (∀ before p after, pieces = before ++ p :: after →
      p.token.pos = .behind source (Piece.weave before ++ p.gap)) ∧
    ((rest = [] ∧ tokenStream source text = Piece.tokens pieces ++ [⟨.eof, [], .behind source text⟩]) ∨
      ∃ cause pos, Lexeme.Stuck cause rest ∧ pos = .behind source (Piece.weave pieces ++ tail) ∧
        tokenStream source text = Piece.tokens pieces ++ [⟨.error, cause.message, pos⟩, ⟨.eof, [], pos⟩]) ∧
    (Piece.tokens pieces).Pairwise fun t u => t.pos.before u.pos = true := by
  obtain ⟨pieces, tail, rest, hlayout, hfollows⟩ := Scan.scanFrom_layout source text .start none [] (Scan.dropped_nil _)
  have hstream : tokenStream source text = Piece.tokens pieces ++ (scan source text).ending.tokens := by
    rw [← hfollows.tokens_eq]
    rfl
  simp only [List.nil_append] at hlayout
  refine ⟨pieces, tail, rest, hlayout, fun before p after hsplit => ?_, ?_, ?_⟩
  · rw [hfollows.pos before p after hsplit, Cursor.position_advance_start]
  · rcases hfollows.ending with ⟨rfl, hending⟩ | ⟨cause, hstuck, hending⟩
    · refine .inl ⟨rfl, hstream.trans (congrArg _ ((congrArg Ending.tokens hending).trans ?_))⟩
      rw [Cursor.position_advance_start, hlayout.text_eq, List.append_nil]
      rfl
    · rw [Cursor.position_advance_start] at hending
      exact .inr ⟨cause, _, hstuck, rfl, hstream.trans (congrArg _ (congrArg Ending.tokens hending))⟩
  · exact hlayout.positions_grow hfollows.pos

end Kettle
