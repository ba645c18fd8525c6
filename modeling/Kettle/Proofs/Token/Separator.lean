/-
Which line breaks end a statement. A line break is a token of its own exactly if it stands in no string and no
comment, before any place where the scan is stuck, and if it is the first one behind a token that can end a
statement; comments may come between the two. Places are counted in runes from the start of the source.
-/
import Kettle.Proofs.Token.Readback
import Mathlib.Data.List.Induction

namespace Kettle

/-- The kinds of tokens that can end a statement. -/
def Kind.enders : List Kind := [.ident, .number, .doubleQuoted, .singleQuoted, .backquoted, .rpar, .rbrace]

theorem Kind.endsStatement_iff {k : Kind} : k.endsStatement = true ↔ k ∈ enders := by cases k <;> decide

/-- A token that is a line break, and so ends a statement. -/
def Token.IsLineBreak (t : Token) : Prop := t.kind = .separator ∧ ∃ r, t.text = [r] ∧ Lexeme.isBreak r = true

/-- A token and the place where it starts. -/
structure Span where
  start : Nat
  token : Token

namespace Span

/-- The place behind a token. -/
def stop (s : Span) : Nat := s.start + s.token.text.length

/-- The tokens of pieces where they are, if so many runes come before the pieces. -/
def ofPieces (offset : Nat) : List Piece → List Span
  | [] => []
  | p :: ps => ⟨offset + p.gap.length, p.token⟩ :: ofPieces (offset + p.gap.length + p.token.text.length) ps

/-- A line break stands at a place, in no string and no comment. -/
structure OpenBreak (text : Text) (spans : List Span) (i : Nat) : Prop where
  rune : ∃ r, text[i]? = some r ∧ Lexeme.isBreak r = true
  outside : ∀ s ∈ spans, s.token.kind.isString = true ∨ s.token.kind.isComment = true → ¬ (s.start ≤ i ∧ i < s.stop)

/-- The last token before a place that is no comment. -/
structure LastBefore (spans : List Span) (i : Nat) (s : Span) : Prop where
  mem : s ∈ spans
  significant : s.token.kind.isComment = false
  before : s.stop ≤ i
  last : ∀ s' ∈ spans, s'.token.kind.isComment = false → s'.stop ≤ i → s'.stop ≤ s.stop

/-! ## Where the tokens of pieces are -/

open Piece (weave)

variable {offset : Nat} {ps : List Piece} {s : Span}

theorem ofPieces_append (offset : Nat) (ps qs : List Piece) :
    ofPieces offset (ps ++ qs) = ofPieces offset ps ++ ofPieces (offset + (weave ps).length) qs := by
  induction ps generalizing offset with
  | nil => rfl
  | cons p ps ih =>
    rw [List.cons_append, ofPieces, ih, ofPieces, Piece.weave_cons]
    simp [Nat.add_assoc]

/-- Every token lies within the text of the pieces. -/
theorem bounds_of_mem (h : s ∈ ofPieces offset ps) : offset ≤ s.start ∧ s.stop ≤ offset + (weave ps).length := by
  induction ps generalizing offset with
  | nil => cases h
  | cons p ps ih =>
    rw [Piece.weave_cons]
    simp only [List.length_append]
    rcases List.mem_cons.1 h with rfl | h
    · simp only [stop]
      omega
    · have := ih h
      omega

theorem exists_piece (h : s ∈ ofPieces offset ps) : ∃ before p after, ps = before ++ p :: after ∧
    s = ⟨offset + (weave before).length + p.gap.length, p.token⟩ := by
  induction ps generalizing offset with
  | nil => cases h
  | cons p ps ih =>
    rcases List.mem_cons.1 h with rfl | h
    · exact ⟨[], p, ps, rfl, by simp⟩
    · obtain ⟨before, q, after, rfl, rfl⟩ := ih h
      refine ⟨p :: before, q, after, rfl, ?_⟩
      simp [Nat.add_assoc]

theorem mem_of_piece (p : Piece) (before after : List Piece) :
    (⟨offset + (weave before).length + p.gap.length, p.token⟩ : Span) ∈ ofPieces offset (before ++ p :: after) := by
  rw [ofPieces_append]
  exact List.mem_append_right _ (List.mem_cons_self ..)

/-- The tokens before a piece, the token of the piece, and those behind it. -/
theorem mem_split {before after : List Piece} {p : Piece} (h : s ∈ ofPieces offset (before ++ p :: after)) :
    s ∈ ofPieces offset before ∨ s = ⟨offset + (weave before).length + p.gap.length, p.token⟩ ∨
      s ∈ ofPieces (offset + (weave before).length + p.gap.length + p.token.text.length) after := by
  rw [ofPieces_append] at h
  exact (List.mem_append.1 h).imp_right List.mem_cons.1

/-- No token of comments is anything but a comment. -/
theorem isComment_of_mem (h : s ∈ ofPieces offset ps) (hps : ∀ p ∈ ps, p.token.kind.isComment = true) :
    s.token.kind.isComment = true := by
  obtain ⟨_, p, _, rfl, rfl⟩ := exists_piece h
  exact hps p (by simp)

end Span

namespace Scan

open Piece (weave)
open Kettle.Span (ofPieces OpenBreak LastBefore)

variable {text tail rest : Text} {pieces before after : List Piece} {i : Nat} {r : Rune} {s : Span}

/-! ## The last token that is no comment -/

/-- The kind that a scan remembers is that of the last token that is no comment. -/
theorem lastKind_cases (ps : List Piece) :
    (lastKind none (Piece.tokens ps) = none ∧ ∀ p ∈ ps, p.token.kind.isComment = true) ∨
      ∃ before q comments, ps = before ++ q :: comments ∧ q.token.kind.isComment = false ∧
        (∀ p ∈ comments, p.token.kind.isComment = true) ∧ lastKind none (Piece.tokens ps) = some q.token.kind := by
  have hconcat : ∀ (ps : List Piece) (p : Piece), lastKind none (Piece.tokens (ps ++ [p])) =
      if p.token.kind.isComment then lastKind none (Piece.tokens ps) else some p.token.kind := by
    intro ps p
    simp [lastKind, Piece.tokens]
  induction ps using List.reverseRecOn with
  | nil => exact .inl ⟨rfl, by simp⟩
  | append_singleton ps p ih =>
    rw [hconcat]
    cases hp : p.token.kind.isComment with
    | false => exact .inr ⟨ps, p, [], rfl, hp, by simp, by simp⟩
    | true =>
      rcases ih with ⟨hnone, hall⟩ | ⟨before, q, comments, rfl, hq, hall, hsome⟩
      · refine .inl ⟨by simpa using hnone, fun p' hp' => ?_⟩
        rcases List.mem_append.1 hp' with hp' | hp'
        · exact hall p' hp'
        · rwa [List.mem_singleton.1 hp']
      · refine .inr ⟨before, q, comments ++ [p], by simp, hq, fun p' hp' => ?_, by simpa using hsome⟩
        rcases List.mem_append.1 hp' with hp' | hp'
        · exact hall p' hp'
        · rwa [List.mem_singleton.1 hp']

theorem Layout.token_ne_nil (h : Layout none text pieces tail rest) {p : Piece} (hp : p ∈ pieces) :
    p.token.text ≠ [] := by
  obtain ⟨before, after, hsplit⟩ := List.append_of_mem hp
  exact (h.stands before p after hsplit).kind.1

/-- At a place where `before` are the pieces whose tokens have ended, the last token before it that is no comment
is the one whose kind the scan remembers. -/
theorem Layout.lastKind_eq (h : Layout none text (before ++ after) tail rest)
    (hafter : ∀ s ∈ ofPieces (weave before).length after, i < s.stop) (hi : (weave before).length ≤ i)
    (hs : LastBefore (ofPieces 0 (before ++ after)) i s) :
    lastKind none (Piece.tokens before) = some s.token.kind := by
  have hmem : s ∈ ofPieces 0 before := by
    have hs' := hs.mem
    rw [Span.ofPieces_append, Nat.zero_add] at hs'
    rcases List.mem_append.1 hs' with hs' | hs'
    · exact hs'
    · have := hafter s hs'
      have := hs.before
      omega
  have hcomment : s.token.kind.isComment ≠ true := by simp [hs.significant]
  rcases lastKind_cases before with ⟨-, hall⟩ | ⟨before', q, comments, rfl, hq, hall, hkind⟩
  · exact absurd (Span.isComment_of_mem hmem hall) hcomment
  · rcases Span.mem_split hmem with hmem | rfl | hmem
    · -- the token `q` comes behind it, and is no comment either
      have hbounds := Span.bounds_of_mem hmem
      have hq' : ⟨0 + (weave before').length + q.gap.length, q.token⟩ ∈
          ofPieces 0 (before' ++ q :: comments ++ after) := by
        rw [List.append_assoc, List.cons_append]
        exact Span.mem_of_piece q before' (comments ++ after)
      have hlast := hs.last _ hq' hq
      have hne : 0 < q.token.text.length := List.length_pos_iff.2 (h.token_ne_nil (by simp))
      simp only [Piece.weave_append, Piece.weave_cons, List.length_append, Span.stop] at hi hlast hbounds
      omega
    · exact hkind
    · exact absurd (Span.isComment_of_mem hmem hall) hcomment

/-- If the scan remembers a kind there, the last token before the place that is no comment is of that kind. -/
theorem exists_lastBefore {k : Kind} (hafter : ∀ s ∈ ofPieces (weave before).length after, i < s.stop)
    (hi : (weave before).length ≤ i) (hk : lastKind none (Piece.tokens before) = some k) :
    ∃ s, LastBefore (ofPieces 0 (before ++ after)) i s ∧ s.token.kind = k := by
  rcases lastKind_cases before with ⟨hnone, -⟩ | ⟨before', q, comments, rfl, hq, hall, hsome⟩
  · cases hnone.symm.trans hk
  · refine ⟨⟨0 + (weave before').length + q.gap.length, q.token⟩, ⟨?_, hq, ?_, fun s hs hc hstop => ?_⟩,
      Option.some.inj (hsome.symm.trans hk)⟩
    · rw [List.append_assoc, List.cons_append]
      exact Span.mem_of_piece q before' _
    · simp only [Piece.weave_append, Piece.weave_cons, List.length_append] at hi
      simp only [Span.stop]
      omega
    · rw [Span.ofPieces_append, Nat.zero_add] at hs
      rcases List.mem_append.1 hs with hs | hs
      · rcases Span.mem_split hs with hs | rfl | hs
        · have := (Span.bounds_of_mem hs).2
          simp only [Span.stop] at this ⊢
          omega
        · exact Nat.le_refl _
        · cases (Span.isComment_of_mem hs hall).symm.trans hc
      · have := hafter s hs
        omega

/-! ## What a place belongs to -/

/-- What the rune at a place is: one of a token's runes, or a blank that is dropped behind some pieces. -/
inductive Spot (pieces : List Piece) (i : Nat) (r : Rune) : Prop where
  | token {s : Span} (hs : s ∈ ofPieces 0 pieces) (hle : s.start ≤ i) (hlt : i < s.stop) : Spot pieces i r
  | blank {before after : List Piece} (hsplit : pieces = before ++ after) (hle : (weave before).length ≤ i)
      (hafter : ∀ s ∈ ofPieces (weave before).length after, i < s.start)
      (hdropped : (Lexeme.isBreak r && (lastKind none (Piece.tokens before)).any Kind.endsStatement) = false) :
      Spot pieces i r

/-- Every rune before the place where the scan is stuck is one or the other. -/
theorem Layout.spot (h : Layout none text pieces tail rest) (hi : text[i]? = some r)
    (hlt : i + rest.length < text.length) : Spot pieces i r := by
  -- by induction on the pieces that are left, once the place is known to be behind those before them
  suffices hsuffix : ∀ after before, pieces = before ++ after → (weave before).length ≤ i → Spot pieces i r from
    hsuffix pieces [] rfl (Nat.zero_le i)
  intro after
  induction after with
  | nil =>
    intro before hsplit hle
    rw [List.append_nil] at hsplit
    subst hsplit
    refine .blank (List.append_nil pieces).symm hle (by simp [ofPieces]) ?_
    have hlen := congrArg List.length h.text_eq
    simp only [List.length_append] at hlen
    rw [h.text_eq, List.getElem?_append_right hle, List.getElem?_append_left (by omega)] at hi
    exact (h.tail r (List.mem_of_getElem? hi)).2
  | cons p after ih =>
    intro before hsplit hle
    by_cases hgap : i < (weave before).length + p.gap.length
    · refine .blank hsplit hle (fun s hs => ?_) ?_
      · rcases List.mem_cons.1 hs with rfl | hs
        · exact hgap
        · have := (Span.bounds_of_mem hs).1
          omega
      · rw [h.text_eq, hsplit, Piece.weave_append, Piece.weave_cons, List.append_assoc, List.getElem?_append_right hle,
          List.append_assoc, List.getElem?_append_left (by omega)] at hi
        exact (h.gaps before p after hsplit r (List.mem_of_getElem? hi)).2
    · by_cases htoken : i < (weave before).length + p.gap.length + p.token.text.length
      · have hmem := @Span.mem_of_piece 0 p before after
        rw [← hsplit] at hmem
        exact .token hmem (by simp only; omega) (by simp only [Span.stop]; omega)
      · refine ih (before ++ [p]) (by simp [hsplit]) ?_
        simp only [Piece.weave_append, Piece.weave_cons, Piece.weave_nil, List.length_append, List.append_nil]
        omega

end Scan

/-- Line breaks stand in strings only, among all tokens that are taken. -/
theorem Lexeme.Spells.isString_of_break {kind : Kind} {text : Text} {r : Rune} (h : Spells kind text) (hmem : r ∈ text)
    (hr : isBreak r = true) : kind.isString = true := by
  have hsingles : ∀ s ∈ singles, isBreak s.1 = false := by decide
  have hdoubles : ∀ d ∈ doubles, isBreak d.1.1 = false ∧ isBreak d.1.2 = false := by decide
  have hclass : ∀ {p : Rune → Bool}, p r = true → p '\n' = false → p '\r' = false → p '\x0b' = false →
      p '\x0c' = false → kind.isString = true := by
    intro p hp h₁ h₂ h₃ h₄
    simp [isBreak, ne_of_class hp h₁, ne_of_class hp h₂, ne_of_class hp h₃, ne_of_class hp h₄] at hr
  cases h with
  | @word c more hc hmore =>
    have hp : continuesWord r = true := by
      rcases List.mem_cons.1 hmem with rfl | hmem
      · simp [continuesWord, hc]
      · exact hmore r hmem
    exact hclass hp (by decide) (by decide) (by decide) (by decide)
  | @number c more hc hmore =>
    have hp : inNumber r = true := by
      rcases List.mem_cons.1 hmem with rfl | hmem
      · simp [inNumber, hc]
      · exact hmore r hmem
    exact hclass hp (by decide) (by decide) (by decide) (by decide)
  | @string quote => cases quote <;> rfl
  | hash hmore =>
    rcases List.mem_cons.1 hmem with rfl | hmem
    · cases hr
    · cases (hmore r hmem).symm.trans hr
  | slash hmore =>
    rcases List.mem_cons.1 hmem with rfl | hmem
    · cases hr
    · rcases List.mem_cons.1 hmem with rfl | hmem
      · cases hr
      · cases (hmore r hmem).symm.trans hr
  | single h =>
    obtain rfl := List.mem_singleton.1 hmem
    cases (hsingles _ h).symm.trans hr
  | double h =>
    rcases List.mem_cons.1 hmem with rfl | hmem
    · cases (hdoubles _ h).1.symm.trans hr
    · obtain rfl := List.mem_singleton.1 hmem
      cases (hdoubles _ h).2.symm.trans hr

namespace Scan

open Piece (weave)
open Kettle.Span (ofPieces OpenBreak LastBefore)

variable {text tail rest : Text} {pieces : List Piece} {i : Nat} {r : Rune} {s : Span}

/-- A token that a line break belongs to is a string, or it is that line break. -/
theorem Layout.covered (h : Layout none text pieces tail rest) (hs : s ∈ ofPieces 0 pieces) (hle : s.start ≤ i)
    (hlt : i < s.stop) (hi : text[i]? = some r) (hr : Lexeme.isBreak r = true) :
    s.token.kind.isString = true ∨ s.token.IsLineBreak ∧ s.start = i := by
  obtain ⟨before, p, after, hsplit, rfl⟩ := Span.exists_piece hs
  have hmem : r ∈ p.token.text := by
    have htext : text = weave before ++ p.gap ++ (p.token.text ++ (weave after ++ (tail ++ rest))) := by
      rw [h.text_eq, hsplit, Piece.weave_append, Piece.weave_cons]
      simp
    simp only [Span.stop, Nat.zero_add] at hle hlt
    rw [htext, List.getElem?_append_right (by simpa using hle), List.getElem?_append_left (by simp; omega)] at hi
    exact List.mem_of_getElem? hi
  have hstands := h.stands before p after hsplit
  generalize p.token = t at hstands hmem hlt
  cases hstands with
  | lexeme ht => exact .inl (ht.spells.isString_of_break hmem hr)
  | lineBreak hc =>
    refine .inr ⟨⟨rfl, _, rfl, hc⟩, ?_⟩
    simp only [Span.stop, List.length_singleton] at hle hlt ⊢
    omega

/-- Behind the last token that is no comment, if it can end a statement, a line break is a token of its own. -/
theorem Layout.lineBreak_of_open (h : Layout none text pieces tail rest) (hopen : OpenBreak text (ofPieces 0 pieces) i)
    (hlt : i + rest.length < text.length) (hs : LastBefore (ofPieces 0 pieces) i s)
    (hk : s.token.kind.endsStatement = true) :
    ∃ s' ∈ ofPieces 0 pieces, s'.start = i ∧ s'.token.IsLineBreak := by
  obtain ⟨r, hi, hr⟩ := hopen.rune
  cases h.spot hi hlt with
  | @token s' hs' hle hstop =>
    rcases h.covered hs' hle hstop hi hr with hstring | ⟨hbreak, hstart⟩
    · exact absurd ⟨hle, hstop⟩ (hopen.outside s' hs' (.inl hstring))
    · exact ⟨s', hs', hstart, hbreak⟩
  | @blank before after hsplit hle hafter hdropped =>
    subst hsplit
    have hkind := h.lastKind_eq (fun s hs => Nat.lt_of_lt_of_le (hafter s hs) (Nat.le_add_right _ _)) hle hs
    rw [hr, hkind, Option.any_some, hk] at hdropped
    cases hdropped

/-- Between a token that can end a statement and the first token behind it that is no comment, there is no
other line break. -/
theorem Layout.first_break (h : Layout none text pieces tail rest) (hlt : i + rest.length < text.length)
    (hs : LastBefore (ofPieces 0 pieces) i s) (hk : s.token.kind.endsStatement = true) :
    ∀ j, s.stop ≤ j → j < i → ¬ OpenBreak text (ofPieces 0 pieces) j := by
  intro j hj hji hopen
  have hlast : LastBefore (ofPieces 0 pieces) j s :=
    ⟨hs.mem, hs.significant, hj, fun s' hs' hc hstop => hs.last s' hs' hc (by omega)⟩
  obtain ⟨s', hs', hstart, hkind, r, htext, -⟩ := h.lineBreak_of_open hopen (by omega) hlast hk
  -- the line break would come behind the last token
  have hstop : s'.stop = j + 1 := by rw [Span.stop, hstart, htext]; rfl
  have := hs.last s' hs' (by rw [hkind]; rfl) (by omega)
  omega

/-- A line break that is a token is in no string and no comment, and the last token before it that is no
comment can end a statement. -/
theorem Layout.open_of_lineBreak {before after : List Piece} {p : Piece} (h : Layout none text pieces tail rest)
    (hsplit : pieces = before ++ p :: after) (hi : (weave before).length + p.gap.length = i)
    (hbreak : p.token.IsLineBreak) :
    OpenBreak text (ofPieces 0 pieces) i ∧ i + rest.length < text.length ∧
      ∃ q, LastBefore (ofPieces 0 pieces) i q ∧ q.token.kind.endsStatement = true := by
  subst hi
  obtain ⟨hkind, r, htext, hr⟩ := hbreak
  have hlength : p.token.text.length = 1 := by rw [htext]; rfl
  have hlast : (lastKind none (Piece.tokens before)).any Kind.endsStatement = true := by
    have hstands := h.stands before p after hsplit
    generalize p.token = t at hstands htext hkind
    cases hstands with
    | lexeme ht =>
      have hstring := ht.spells.isString_of_break (by rw [htext]; exact List.mem_singleton_self r) hr
      rw [hkind] at hstring
      cases hstring
    | lineBreak _ hlast => exact hlast
  have hsource : text = weave before ++ p.gap ++ (r :: (weave after ++ (tail ++ rest))) := by
    rw [h.text_eq, hsplit, Piece.weave_append, Piece.weave_cons, htext]
    simp
  refine ⟨⟨⟨r, ?_, hr⟩, fun s hs hkinds hcovers => ?_⟩, ?_, ?_⟩
  · rw [hsource, List.getElem?_append_right (by simp)]
    simp
  · rw [hsplit] at hs
    rcases Span.mem_split hs with hs | rfl | hs
    · have := (Span.bounds_of_mem hs).2
      omega
    · rw [show (Span.mk _ p.token).token.kind = .separator from hkind] at hkinds
      rcases hkinds with hstring | hcomment
      · cases hstring
      · cases hcomment
    · have := (Span.bounds_of_mem hs).1
      omega
  · rw [hsource]
    simp only [List.length_append, List.length_cons]
    omega
  · have hafter : ∀ s ∈ ofPieces (weave before).length (p :: after), (weave before).length + p.gap.length < s.stop := by
      intro s hs
      rcases List.mem_cons.1 hs with rfl | hs
      · simp only [Span.stop]
        omega
      · simp only [Span.stop]
        have := (Span.bounds_of_mem hs).1
        omega
    obtain ⟨k, hk, hends⟩ := (Option.any_eq_true _ _).1 hlast
    obtain ⟨q, hq, rfl⟩ := exists_lastBefore hafter (Nat.le_add_right _ _) hk
    exact ⟨q, hsplit ▸ hq, hends⟩

/-- Among tokens without comments, what comes directly before a line break can end a statement. -/
theorem Legible.before_lineBreak {last : Option Kind} {labels : List (Kind × Text)} (h : Legible last labels) :
    ∀ before r after, labels = before ++ (.separator, [r]) :: after → Lexeme.isBreak r = true →
      ((before.getLast?.map Prod.fst).or last).any Kind.endsStatement = true := by
  -- the tokens before it are taken off one by one, and the last of them is remembered
  have hcons : ∀ (a : Kind × Text) (before : List (Kind × Text)) (last : Option Kind),
      ((a :: before).getLast?.map Prod.fst).or last = (before.getLast?.map Prod.fst).or (some a.1) := by
    intro a before last
    rw [List.getLast?_cons]
    cases before.getLast? <;> rfl
  induction h with
  | nil =>
    rintro before r after hsplit
    simp at hsplit
  | lexeme hspells _ _ ih =>
    rintro before r after hsplit hr
    cases before with
    | nil =>
      cases hsplit
      cases hspells.isString_of_break (List.mem_singleton_self r) hr
    | cons a before =>
      cases hsplit
      rw [hcons]
      exact ih before r after rfl hr
  | lineBreak _ hlast _ ih =>
    rintro before r after hsplit hr
    cases before with
    | nil => exact hlast
    | cons a before =>
      cases hsplit
      rw [hcons]
      exact ih before r after rfl hr

end Scan

/-- Line breaks end statements exactly where they should. In the layout that the scan of a source follows, a line
break is a token of its own if and only if it is in no string and no comment, before the place where the scan is
stuck, if there is one, and the last token before it that is no comment is a name, a number, a string or a closing
bracket, with no other such line break between the two. So, comments left out, every line break that is a token comes
directly behind one of those, and never at the start, behind another line break, a semicolon, an operator, a comma
or an opening bracket. -/
theorem line_breaks_end_statements (source text : Text) : ∃ pieces tail rest,
    Scan.Layout none text pieces tail rest ∧ Scan.Follows source .start (scan source text) pieces tail rest ∧
    (∀ i, (∃ s ∈ Span.ofPieces 0 pieces, s.start = i ∧ s.token.IsLineBreak) ↔
      Span.OpenBreak text (Span.ofPieces 0 pieces) i ∧ i + rest.length < text.length ∧
        ∃ s, Span.LastBefore (Span.ofPieces 0 pieces) i s ∧ s.token.kind ∈ Kind.enders ∧
          ∀ j, s.stop ≤ j → j < i → ¬ Span.OpenBreak text (Span.ofPieces 0 pieces) j) ∧
    ∀ before t after, Token.significant (scan source text).tokens = before ++ t :: after → t.IsLineBreak →
      ∃ before' u, before = before' ++ [u] ∧ u.kind ∈ Kind.enders := by
  obtain ⟨pieces, tail, rest, hlayout, hfollows⟩ := Scan.scanFrom_layout source text .start none [] (Scan.dropped_nil _)
  refine ⟨pieces, tail, rest, hlayout, hfollows, fun i => ⟨?_, ?_⟩, ?_⟩
  · rintro ⟨s, hs, rfl, hbreak⟩
    obtain ⟨before, p, after, hsplit, rfl⟩ := Span.exists_piece hs
    rw [Nat.zero_add]
    obtain ⟨hopen, hlt, q, hq, hends⟩ := hlayout.open_of_lineBreak hsplit rfl hbreak
    exact ⟨hopen, hlt, q, hq, Kind.endsStatement_iff.1 hends, hlayout.first_break hlt hq hends⟩
  · rintro ⟨hopen, hlt, s, hs, hk, -⟩
    exact hlayout.lineBreak_of_open hopen hlt hs (Kind.endsStatement_iff.2 hk)
  · rintro before t after hsplit ⟨hkind, r, htext, hr⟩
    have hlegible := Scan.scanFrom_legible source text .start none
    have hlabels : (Token.significant (scan source text).tokens).map Token.label =
        before.map Token.label ++ (.separator, [r]) :: after.map Token.label := by
      rw [hsplit, List.map_append, List.map_cons, Token.label, hkind, htext]
    have hlast := hlegible.before_lineBreak _ r _ hlabels hr
    rw [Option.or_none, List.getLast?_map, Option.map_map] at hlast
    obtain ⟨k, hk, hends⟩ := (Option.any_eq_true _ _).1 hlast
    obtain ⟨u, hu, rfl⟩ := Option.map_eq_some_iff.1 hk
    obtain ⟨before', rfl⟩ := List.getLast?_eq_some_iff.1 hu
    exact ⟨before', u, rfl, Kind.endsStatement_iff.1 hends⟩

end Kettle
