/-
Highlighting and scanning. A line is cut into its fragments by looking for the text of one token after the other,
without regard to where the scan found it. What lies between two tokens is blank and no token starts with a blank, so
that each search comes to the very place of its token. Where the scan is stuck, the line is marked from the first rune
that is no blank on; the blanks that are skipped are more than those of the lexical grammar.
-/
import Kettle.Proofs.Token.Separator
import Kettle.Session.Highlight

namespace Kettle

/-! ## Blanks and tokens -/

/-- No blank is a letter. -/
theorem blankRanges_apart : ∀ blanks ∈ Text.blankRanges, ∀ letters ∈ Text.letterRanges,
    blanks.2 < letters.1 ∨ letters.2 < blanks.1 := by decide +kernel

theorem Rune.isBlank_of_isLetter {r : Rune} (h : r.isLetter = true) : r.isBlank = false := by
  unfold Rune.isLetter at h
  unfold Rune.isBlank
  split at h
  · rename_i hascii
    rw [if_pos hascii]
    simp only [Bool.or_eq_true, Bool.and_eq_true, decide_eq_true_eq] at h
    simp only [Bool.or_eq_false_iff, Bool.and_eq_false_iff, decide_eq_false_iff_not]
    omega
  · rename_i hascii
    rw [if_neg hascii]
    obtain ⟨letters, hletters, hr⟩ := List.any_eq_true.1 h
    refine List.any_eq_false.2 fun blanks hblanks => ?_
    have hapart := blankRanges_apart blanks hblanks letters hletters
    simp only [Bool.and_eq_true, decide_eq_true_eq] at hr ⊢
    omega

namespace Lexeme

variable {kind : Kind} {cause : LexicalCause} {r c : Rune} {more : Text}

/-- The blanks that lay out a program are among all blanks. -/
theorem isBlank_of_isSpace (h : isSpace r = true) : r.isBlank = true := by
  simp only [isSpace, Bool.or_eq_true, decide_eq_true_eq] at h
  rcases h with ((((rfl | rfl) | rfl) | rfl) | rfl) | rfl <;> decide

theorem isBlank_of_startsWord (h : startsWord r = true) : r.isBlank = false := by
  simp only [startsWord, Bool.or_eq_true, decide_eq_true_eq] at h
  rcases h with rfl | h
  · decide
  · exact Rune.isBlank_of_isLetter h

theorem isBlank_of_digit (h : r.isAsciiDigit = true) : r.isBlank = false := by
  have hdigit : 0x30 ≤ r.val ∧ r.val ≤ 0x39 := by simpa [Rune.isAsciiDigit] using h
  unfold Rune.isBlank
  rw [if_pos (by omega)]
  simp only [Bool.or_eq_false_iff, Bool.and_eq_false_iff, decide_eq_false_iff_not]
  omega

theorem isBlank_quote (quote : Quote) : quote.rune.isBlank = false := by cases quote <;> decide

/-- No token starts with a blank, be it one that the lexical grammar does not know. -/
theorem Spells.isBlank_head (h : Spells kind (r :: more)) : r.isBlank = false := by
  have hsingles : ∀ s ∈ singles, s.1.isBlank = false := by decide
  have hdoubles : ∀ d ∈ doubles, d.1.1.isBlank = false := by decide
  cases h with
  | word hr => exact isBlank_of_startsWord hr
  | number hr => exact isBlank_of_digit hr
  | @string quote => exact isBlank_quote quote
  | hash => decide
  | slash => decide
  | single h => exact hsingles _ h
  | double h => exact hdoubles _ h

/-- Where no token can be taken at a rune, either the rune itself is not recognized or it is no blank. -/
theorem Stuck.head (h : Stuck cause (r :: more)) :
    cause = .unrecognized r ∨ (∀ c, cause ≠ .unrecognized c) ∧ r.isBlank = false := by
  -- a number or a string that goes wrong has started already
  have hnumber : ∀ {number rest : Text}, Spells .number number → r :: more = number ++ rest → r.isBlank = false := by
    intro number rest hnumber htext
    obtain ⟨c, digits, rfl, hc, -⟩ := hnumber.of_number
    obtain ⟨rfl, -⟩ := List.cons.inj htext
    exact isBlank_of_digit hc
  generalize htext : r :: more = text at h
  cases h with
  | unrecognized => exact .inl (by rw [(List.cons.inj htext).1])
  | secondPoint hspells => exact .inr ⟨by simp, hnumber hspells htext⟩
  | letter hspells => exact .inr ⟨by simp, hnumber hspells htext⟩
  | @unclosed quote =>
    obtain ⟨rfl, -⟩ := List.cons.inj htext
    exact .inr ⟨by simp, isBlank_quote quote⟩

end Lexeme

/-- A token that is seen on its line: any but a separator that is a line break. -/
def Token.isVisible (t : Token) : Bool := !(t.kind = .separator && Text.isBlank t.text)

/-- What the highlighter needs to know of a piece: the gap is made of layout blanks, and so is a token that is not seen,
while one that is seen starts with something else. -/
structure Piece.Legible (p : Piece) : Prop where
  gap : ∀ r ∈ p.gap, Lexeme.isSpace r = true
  seen : p.token.isVisible = true → ∃ r more, p.token.text = r :: more ∧ r.isBlank = false
  unseen : p.token.isVisible = false → ∀ r ∈ p.token.text, Lexeme.isSpace r = true

theorem Scan.Layout.legible {text tail rest : Text} {pieces : List Piece} (h : Layout none text pieces tail rest) :
    ∀ p ∈ pieces, p.Legible := by
  intro p hp
  obtain ⟨before, after, hsplit⟩ := List.append_of_mem hp
  have hstands := h.stands before p after hsplit
  have hgap : ∀ r ∈ p.gap, Lexeme.isSpace r = true := fun r hr => (h.gaps before p after hsplit r hr).1
  cases htoken : p.token with
  | mk kind text pos =>
    rw [htoken] at hstands
    cases hstands with
    | lexeme htaken =>
      obtain ⟨r, more, rfl⟩ := List.exists_cons_of_ne_nil htaken.spells.ne_nil
      have hr := htaken.spells.isBlank_head
      refine ⟨hgap, fun _ => ⟨r, more, by rw [htoken], hr⟩, fun hunseen => ?_⟩
      simp [htoken, Token.isVisible, Text.isBlank, hr] at hunseen
    | @lineBreak r _ _ hr =>
      have hspace : Lexeme.isSpace r = true := Lexeme.isSpace_of_isBreak hr
      refine ⟨hgap, fun hseen => ?_, fun _ => by simpa [htoken] using hspace⟩
      simp [htoken, Token.isVisible, Text.isBlank, Lexeme.isBlank_of_isSpace hspace] at hseen

/-! ## Searching for a text -/

namespace Text

theorem eq_of_splitAt? {piece t before after : Text} (h : splitAt? piece t = some (before, after)) :
    t = before ++ (piece ++ after) := by
  induction t generalizing before with
  | nil =>
    cases piece with
    | nil => cases h; rfl
    | cons => cases h
  | cons r rest ih =>
    rw [splitAt?] at h
    split at h
    · rename_i hprefix
      cases h
      obtain ⟨after, hafter⟩ := List.isPrefixOf_iff_prefix.1 hprefix
      rw [← hafter, List.drop_left, List.nil_append]
    · obtain ⟨⟨before', after'⟩, hrest, hpair⟩ := Option.map_eq_some_iff.1 h
      cases hpair
      exact congrArg (List.cons r) (ih hrest)

/-- A text behind runes it does not start with is found right behind them. -/
theorem splitAt?_behind {r : Rune} {gap more rest : Text} (hgap : ∀ c ∈ gap, c ≠ r) :
    splitAt? (r :: more) (gap ++ (r :: more ++ rest)) = some (gap, rest) := by
  induction gap with
  | nil =>
    have hprefix : (r :: more).isPrefixOf (r :: more ++ rest) = true :=
      List.isPrefixOf_iff_prefix.2 (List.prefix_append _ _)
    rw [List.nil_append, List.cons_append, splitAt?, ← List.cons_append, if_pos hprefix, List.drop_left]
  | cons c gap ih =>
    have hne : ¬ (r :: more).isPrefixOf (c :: (gap ++ (r :: more ++ rest))) = true := by
      simp [List.isPrefixOf, Ne.symm (hgap c (by simp))]
    rw [List.cons_append, splitAt?, if_neg hne, ih fun c' hc' => hgap c' (by simp [hc'])]
    rfl

end Text

namespace Highlight

open Piece (weave)

variable {ending : Ending} {text held tail rest : Text} {pieces : List Piece} {offset : Nat}

/-! ## Nothing of a line is lost -/

theorem plain_text (t : Text) : (plain t).flatMap Fragment.text = t := by
  cases t <;> simp [plain]

theorem failed_text (t : Text) : (failed t).flatMap Fragment.text = t := by
  rw [failed, List.flatMap_append, plain_text]
  simp [Text.trimLeft]

/-- Whatever tokens are searched for, and in whatever order, the fragments make up the line. -/
theorem fragments_text (ending : Ending) (rest : Text) (ts : List Token) :
    (fragments ending rest ts).flatMap Fragment.text = rest := by
  induction rest, ts using fragments_induct ending with
  | finished rest pos => exact plain_text rest
  | failed rest cause pos => exact failed_text rest
  | blank rest t ts hblank ih => exact ih
  | missing rest t ts hblank hnone ih => exact ih
  | found rest t ts hblank before after hsome ih =>
    rw [List.flatMap_append, plain_text, List.flatMap_cons, ih]
    exact (Text.eq_of_splitAt? hsome).symm

/-- The fragments that are found in a line. -/
def found (text : Text) : List Fragment := fragments (scan "<repl>" text).ending text (scan "<repl>" text).tokens

/-- Only in the empty line nothing is found, and it gets an empty fragment. -/
theorem line_eq (text : Text) : line text = found text ∨ found text = [] ∧ text = [] ∧ line text = [⟨[], []⟩] := by
  have htext : (found text).flatMap Fragment.text = text := fragments_text _ _ _
  unfold line
  dsimp only
  split
  · rename_i hnil
    have hfound : found text = [] := hnil
    rw [hfound] at htext
    subst htext
    exact .inr ⟨hfound, rfl, rfl⟩
  · exact .inl rfl

theorem line_text (text : Text) : (line text).flatMap Fragment.text = text := by
  rcases line_eq text with hline | ⟨-, rfl, hline⟩
  · rw [hline]
    exact fragments_text _ _ _
  · rw [hline]
    rfl

/-! ## Asking again -/

/-- What is kept of lines are their fragments. -/
def Kept (lines : List Text) (cache : Cache) : Prop := ∀ n found, cache.lookup n = some found → found = lineAt lines n

variable {lines : List Text} {cache : Cache}

theorem ask_kept (h : Kept lines cache) (n : Nat) :
    (ask lines cache n).1 = lineAt lines n ∧ Kept lines (ask lines cache n).2 := by
  unfold ask
  cases hlookup : cache.lookup n with
  | some found => exact ⟨h n found hlookup, h⟩
  | none =>
    refine ⟨rfl, fun m found hm => ?_⟩
    rw [List.lookup_cons] at hm
    split at hm
    · rename_i heq
      cases hm
      rw [eq_of_beq heq]
    · exact h m found hm

theorem askAll_kept (h : Kept lines cache) (ns : List Nat) :
    (askAll lines cache ns).1 = ns.map (lineAt lines) ∧ Kept lines (askAll lines cache ns).2 := by
  induction ns generalizing cache with
  | nil => exact ⟨rfl, h⟩
  | cons n ns ih =>
    obtain ⟨hfound, hkept⟩ := ask_kept h n
    obtain ⟨hmore, hkept'⟩ := ih hkept
    exact ⟨congrArg₂ List.cons hfound hmore, hkept'⟩

/-- However often the lines of a text are asked for, their fragments are those of the lines. -/
theorem document_eq (text : Text) (times : Nat) : document text times [] =
    List.replicate times ((List.range ((Text.lines text).length + 1)).map (lineAt (Text.lines text))) := by
  suffices h : ∀ cache, Kept (Text.lines text) cache → document text times cache =
      List.replicate times ((List.range ((Text.lines text).length + 1)).map (lineAt (Text.lines text))) from
    h [] fun _ _ h => by cases h
  induction times with
  | zero => exact fun _ _ => rfl
  | succ times ih =>
    intro cache h
    obtain ⟨hfound, hkept⟩ := askAll_kept h (List.range ((Text.lines text).length + 1))
    exact congrArg₂ List.cons hfound (ih _ hkept)

/-! ## Where fragments are -/

/-- Fragments, each with the place where it starts. -/
def placed (offset : Nat) : List Fragment → List (Nat × Fragment)
  | [] => []
  | f :: fs => (offset, f) :: placed (offset + f.text.length) fs

/-- Whether a fragment shows something, and no error. -/
def isInk (f : Fragment) : Bool := !Text.isBlank f.text && f.style ≠ Group.error.style

/-- The fragments that show something, each with its place. -/
def inked (offset : Nat) (fs : List Fragment) : List (Nat × Fragment) := (placed offset fs).filter fun p => isInk p.2

/-- The fragment of a token, at the place of the token. -/
def ofSpan (s : Span) : Nat × Fragment := (s.start, ⟨(groupOf s.token).style, s.token.text⟩)

/-- The tokens that are seen, each with its place. -/
def seen (spans : List Span) : List Span := spans.filter fun s => s.token.isVisible

theorem seen_cons (s : Span) (spans : List Span) :
    seen (s :: spans) = if s.token.isVisible then s :: seen spans else seen spans := by
  cases h : s.token.isVisible <;> simp [seen, h]

theorem placed_append (offset : Nat) (fs gs : List Fragment) :
    placed offset (fs ++ gs) = placed offset fs ++ placed (offset + (fs.flatMap Fragment.text).length) gs := by
  induction fs generalizing offset with
  | nil => rfl
  | cons f fs ih =>
    rw [List.cons_append, placed, ih, placed, List.flatMap_cons, List.length_append, Nat.add_assoc]
    rfl

theorem inked_append (offset : Nat) (fs gs : List Fragment) :
    inked offset (fs ++ gs) = inked offset fs ++ inked (offset + (fs.flatMap Fragment.text).length) gs := by
  rw [inked, placed_append, List.filter_append]
  rfl

theorem isBlank_of_spaces {t : Text} (h : ∀ r ∈ t, Lexeme.isSpace r = true) : Text.isBlank t = true :=
  List.all_eq_true.2 fun r hr => Lexeme.isBlank_of_isSpace (h r hr)

theorem inked_plain {t : Text} (h : Text.isBlank t = true) (offset : Nat) : inked offset (plain t) = [] := by
  cases t with
  | nil => rfl
  | cons r t => simp [inked, plain, placed, isInk, h]

theorem plain_style (t : Text) : ∀ f ∈ plain t, f.style ≠ Group.error.style := by
  intro f hf
  have hstyle : ([] : Text) ≠ Group.error.style := by decide
  unfold plain at hf
  split at hf
  · cases hf
  · obtain rfl := List.mem_singleton.1 hf
    exact hstyle

/-- No token has the style of an error. -/
theorem groupOf_style (t : Token) : (groupOf t).style ≠ Group.error.style := by
  have hgroup : groupOf t ≠ .error := by
    unfold groupOf
    split <;> (try split) <;> (try split) <;> simp
  generalize groupOf t = g at hgroup
  revert hgroup
  cases g <;> decide

/-! ## The fragments of pieces -/

/-- A token that is seen is found behind the blanks before it. -/
theorem splitAt?_seen {p : Piece} (hp : p.Legible) (hseen : p.token.isVisible = true)
    (hheld : ∀ r ∈ held, Lexeme.isSpace r = true) (u : Text) :
    Text.splitAt? p.token.text (held ++ (p.gap ++ (p.token.text ++ u))) = some (held ++ p.gap, u) := by
  obtain ⟨r, more, htext, hr⟩ := hp.seen hseen
  rw [htext, ← List.append_assoc]
  refine Text.splitAt?_behind fun c hc => ?_
  have hspace : Lexeme.isSpace c = true := (List.mem_append.1 hc).elim (hheld c) (hp.gap c)
  rintro rfl
  rw [Lexeme.isBlank_of_isSpace hspace] at hr
  cases hr

theorem fragments_seen {p : Piece} (hp : p.Legible) (hseen : p.token.isVisible = true)
    (hheld : ∀ r ∈ held, Lexeme.isSpace r = true) (u : Text) (ts : List Token) :
    fragments ending (held ++ (p.gap ++ (p.token.text ++ u))) (p.token :: ts) =
      plain (held ++ p.gap) ++ ⟨(groupOf p.token).style, p.token.text⟩ :: fragments ending u ts := by
  obtain ⟨r, more, htext, hr⟩ := hp.seen hseen
  have hblank : ¬ Text.isBlank p.token.text = true := by simp [htext, Text.isBlank, hr]
  rw [fragments, if_neg hblank, splitAt?_seen hp hseen hheld u]

/-- A token that is not seen is left to what lies between. -/
theorem fragments_unseen {p : Piece} (hp : p.Legible) (hunseen : p.token.isVisible = false) (u : Text)
    (ts : List Token) : fragments ending u (p.token :: ts) = fragments ending u ts := by
  rw [fragments, if_pos (isBlank_of_spaces (hp.unseen hunseen))]

/-- Fragments that show tokens and nothing else, and no error. -/
structure Shows (offset : Nat) (fs : List Fragment) (spans : List Span) : Prop where
  inked_eq : inked offset fs = (seen spans).map ofSpan
  style : ∀ f ∈ fs, f.style ≠ Group.error.style

/-- The tokens of pieces are found one after the other, and what comes behind the pieces is left with some blanks
before it. The induction goes along the pieces; `held` holds the blanks since the last token that is seen. -/
theorem fragments_pieces (ending : Ending) (offset : Nat) (hpieces : ∀ p ∈ pieces, p.Legible)
    (hheld : ∀ r ∈ held, Lexeme.isSpace r = true) :
    ∃ before held', (∀ r ∈ held', Lexeme.isSpace r = true) ∧
      (∀ u, fragments ending (held ++ (weave pieces ++ u)) (Piece.tokens pieces) =
        before ++ fragments ending (held' ++ u) []) ∧
      Shows offset before (Span.ofPieces (offset + held.length) pieces) := by
  induction pieces generalizing held offset with
  | nil => exact ⟨[], held, hheld, fun u => rfl, rfl, by simp⟩
  | cons p pieces ih =>
    have hp := hpieces p (by simp)
    have htail : ∀ q ∈ pieces, q.Legible := fun q hq => hpieces q (by simp [hq])
    have hspaces : ∀ r ∈ held ++ p.gap, Lexeme.isSpace r = true :=
      fun r hr => (List.mem_append.1 hr).elim (hheld r) (hp.gap r)
    rw [Span.ofPieces, Piece.tokens_cons]
    cases hvisible : p.token.isVisible with
    | true =>
      obtain ⟨before, held', hheld', hfragments, hshows⟩ := @ih []
        (offset + held.length + p.gap.length + p.token.text.length) htail (by simp)
      refine ⟨plain (held ++ p.gap) ++ ⟨(groupOf p.token).style, p.token.text⟩ :: before, held', hheld',
        fun u => ?_, ?_⟩
      · rw [Piece.weave_cons, List.append_assoc, List.append_assoc, fragments_seen hp hvisible hheld,
          ← List.nil_append (weave pieces ++ u), hfragments]
        simp
      · have hink : isInk ⟨(groupOf p.token).style, p.token.text⟩ = true := by
          obtain ⟨r, more, htext, hr⟩ := hp.seen hvisible
          simp [isInk, groupOf_style, htext, Text.isBlank, hr]
        refine ⟨?_, fun f hf => ?_⟩
        · have hrest := hshows.inked_eq
          rw [inked, List.length_nil, Nat.add_zero] at hrest
          rw [inked_append, inked_plain (isBlank_of_spaces hspaces), plain_text, inked, placed, List.filter_cons,
            if_pos hink, seen_cons, if_pos hvisible]
          simp only [List.length_append, ← Nat.add_assoc, List.nil_append, hrest, List.map_cons]
          rfl
        · rcases List.mem_append.1 hf with hf | hf
          · exact plain_style _ f hf
          · rcases List.mem_cons.1 hf with rfl | hf
            · exact groupOf_style p.token
            · exact hshows.style f hf
    | false =>
      have hmore : ∀ r ∈ held ++ (p.gap ++ p.token.text), Lexeme.isSpace r = true := by
        intro r hr
        rw [← List.append_assoc] at hr
        exact (List.mem_append.1 hr).elim (hspaces r) (hp.unseen hvisible r)
      obtain ⟨before, held', hheld', hfragments, hshows⟩ := @ih (held ++ (p.gap ++ p.token.text)) offset htail hmore
      refine ⟨before, held', hheld', fun u => ?_, ?_, hshows.style⟩
      · rw [fragments_unseen hp hvisible, ← hfragments, Piece.weave_cons]
        simp
      · have hrest := hshows.inked_eq
        rw [seen_cons, if_neg (by simp [hvisible])]
        simpa only [List.length_append, ← Nat.add_assoc] using hrest

/-- The place behind the last token of some pieces that is seen: from there on the next one is searched for. -/
def reached (pieces : List Piece) : Nat := (seen (Span.ofPieces 0 pieces)).getLast?.elim 0 Span.stop

/-- Behind the last token that is seen there are blanks only. -/
theorem weave_reached (h : ∀ p ∈ pieces, p.Legible) : ∃ done held, weave pieces = done ++ held ∧
    done.length = reached pieces ∧ ∀ r ∈ held, Lexeme.isSpace r = true := by
  induction pieces using List.reverseRecOn with
  | nil => exact ⟨[], [], rfl, rfl, by simp⟩
  | append_singleton pieces p ih =>
    have hp := h p (by simp)
    have hweave : weave (pieces ++ [p]) = weave pieces ++ (p.gap ++ p.token.text) := by simp [Piece.weave_append]
    have hseen : seen (Span.ofPieces 0 (pieces ++ [p])) = seen (Span.ofPieces 0 pieces) ++
        seen [⟨0 + (weave pieces).length + p.gap.length, p.token⟩] := by
      rw [Span.ofPieces_append, seen, List.filter_append]
      rfl
    rw [hweave, reached, hseen, seen_cons]
    cases hvisible : p.token.isVisible with
    | true =>
      refine ⟨_, [], (List.append_nil _).symm, ?_, by simp⟩
      simp only [List.length_append, if_true, seen, List.filter_nil, List.getLast?_concat, Option.elim, Span.stop]
      omega
    | false =>
      obtain ⟨done, held, hdone, hlength, hheld⟩ := ih fun q hq => h q (by simp [hq])
      refine ⟨done, held ++ (p.gap ++ p.token.text), by rw [hdone, List.append_assoc], ?_, ?_⟩
      · rw [hlength, if_neg (by simp), show seen [] = [] from rfl, List.append_nil]
        rfl
      · intro r hr
        rcases List.mem_append.1 hr with hr | hr
        · exact hheld r hr
        · exact (List.mem_append.1 hr).elim (hp.gap r) (hp.unseen hvisible r)

/-- The search for a token that is seen comes to its place. -/
theorem search_finds {before after : List Piece} {p : Piece} (hpieces : ∀ q ∈ before ++ p :: after, q.Legible)
    (hseen : p.token.isVisible = true) (u : Text) :
    (Text.splitAt? p.token.text ((weave (before ++ p :: after) ++ u).drop (reached before))).map
        (fun found => reached before + found.1.length) = some ((weave before).length + p.gap.length) := by
  have hbefore : ∀ q ∈ before, q.Legible := fun q hq => hpieces q (by simp [hq])
  obtain ⟨done, held, hdone, hlength, hheld⟩ := weave_reached hbefore
  have hdrop : (weave (before ++ p :: after) ++ u).drop (reached before) =
      held ++ (p.gap ++ (p.token.text ++ (weave after ++ u))) := by
    rw [Piece.weave_append, Piece.weave_cons, hdone, ← hlength]
    simp
  rw [hdrop, splitAt?_seen (hpieces p (by simp)) hseen hheld, Option.map_some, hdone, ← hlength,
    List.length_append, List.length_append, Nat.add_assoc]

theorem trimLeft_spaces (h : ∀ r ∈ held, Lexeme.isSpace r = true) (rest : Text) :
    Text.trimLeft (held ++ rest) = Text.trimLeft rest :=
  List.dropWhile_append_of_pos fun r hr => Lexeme.isBlank_of_isSpace (h r hr)

/-- How the fragments of a line end: with the blanks at its end, or with an error that the blanks before it are cut
from. -/
theorem found_shows (hlayout : Scan.Layout none text pieces tail rest)
    (hfollows : Scan.Follows "<repl>" .start (scan "<repl>" text) pieces tail rest) :
    ∃ before blanks, Shows 0 before (Span.ofPieces 0 pieces) ∧ Text.isBlank blanks = true ∧
      ((∃ pos, (scan "<repl>" text).ending = .finished pos ∧ found text = before ++ plain blanks) ∨
        ∃ cause pos, (scan "<repl>" text).ending = .failed cause pos ∧ Lexeme.Stuck cause rest ∧
          found text = before ++ plain blanks ++ [⟨Group.error.style, Text.trimLeft rest⟩]) := by
  have hnone : ∀ r ∈ ([] : Text), Lexeme.isSpace r = true := by simp
  obtain ⟨before, held, hheld, hfragments, hshows⟩ :=
    fragments_pieces (scan "<repl>" text).ending 0 hlayout.legible hnone
  have hspaces : ∀ r ∈ held ++ tail, Lexeme.isSpace r = true :=
    fun r hr => (List.mem_append.1 hr).elim (hheld r) fun hr => (hlayout.tail r hr).1
  have hfound : found text = before ++ fragments (scan "<repl>" text).ending (held ++ tail ++ rest) [] := by
    have htext := hfragments (tail ++ rest)
    rw [List.nil_append, ← hlayout.text_eq] at htext
    rw [found, hfollows.tokens_eq, htext, List.append_assoc]
  rcases hfollows.ending with ⟨rfl, hending⟩ | ⟨cause, hstuck, hending⟩
  · refine ⟨before, held ++ tail, hshows, isBlank_of_spaces hspaces, .inl ⟨_, hending, ?_⟩⟩
    rw [hfound, hending, List.append_nil]
    rfl
  · refine ⟨before, (held ++ tail ++ rest).takeWhile Rune.isBlank, hshows, ?_, .inr ⟨cause, _, hending, hstuck, ?_⟩⟩
    · exact List.all_eq_true.2 fun r hr => List.mem_takeWhile_imp hr
    · rw [hfound, hending, fragments, failed, trimLeft_spaces hspaces, ← List.append_assoc before]

/-- What is found in a line shows its tokens. -/
theorem inked_found (hlayout : Scan.Layout none text pieces tail rest)
    (hfollows : Scan.Follows "<repl>" .start (scan "<repl>" text) pieces tail rest) :
    inked 0 (found text) = (seen (Span.ofPieces 0 pieces)).map ofSpan := by
  obtain ⟨before, blanks, hshows, hblanks, ⟨pos, -, hfound⟩ | ⟨cause, pos, -, -, hfound⟩⟩ :=
    found_shows hlayout hfollows
  · rw [hfound, inked_append, inked_plain hblanks, List.append_nil]
    exact hshows.inked_eq
  · have herror : ∀ (offset : Nat) (t : Text), inked offset [⟨Group.error.style, t⟩] = [] := by
      intro offset t
      simp [inked, placed, isInk]
    rw [hfound, inked_append, inked_append, inked_plain hblanks, herror, List.append_nil, List.append_nil]
    exact hshows.inked_eq

end Highlight

/-- Highlighting cuts a line along its tokens. The texts of the fragments make up the line; the fragments that show
something other than an error are, in order, those of the tokens that are seen, each at the place where the token is in
the line and with the style of its group; and the search for such a token from the place behind the last one before it
comes to that place. -/
theorem highlighting_follows_tokens (text : Text) :
    (Highlight.line text).flatMap Highlight.Fragment.text = text ∧
    ∃ pieces tail rest, Scan.Layout none text pieces tail rest ∧
      Scan.Follows "<repl>" .start (scan "<repl>" text) pieces tail rest ∧
      Highlight.inked 0 (Highlight.line text) = (Highlight.seen (Span.ofPieces 0 pieces)).map Highlight.ofSpan ∧
      ∀ before p after, pieces = before ++ p :: after → p.token.isVisible = true →
        (Text.splitAt? p.token.text (text.drop (Highlight.reached before))).map
            (fun found => Highlight.reached before + found.1.length) =
          some ((Piece.weave before).length + p.gap.length) := by
  obtain ⟨pieces, tail, rest, hlayout, hfollows⟩ :=
    Scan.scanFrom_layout "<repl>" text .start none [] (Scan.dropped_nil _)
  rw [List.nil_append] at hlayout
  refine ⟨Highlight.line_text text, pieces, tail, rest, hlayout, hfollows, ?_, ?_⟩
  · have hinked := Highlight.inked_found hlayout hfollows
    rcases Highlight.line_eq text with hline | ⟨hfound, -, hline⟩
    · rw [hline, hinked]
    · rw [← hinked, hfound, hline]
      rfl
  · rintro before p after rfl hseen
    rw [hlayout.text_eq]
    exact Highlight.search_finds hlayout.legible hseen _

/-- Where a line cannot be scanned to its end, its last fragment is an error, and no other one is. It starts at the
first rune, from the place on where no token can be taken, that is no blank; and that is the place itself unless a blank
stands there that the lexical grammar does not know. -/
theorem lexical_faults_highlighted {text : Text} {cause : LexicalCause} {pos : Position}
    (h : (scan "<repl>" text).ending = .failed cause pos) :
    ∃ pieces tail rest before, Scan.Layout none text pieces tail rest ∧
      Scan.Follows "<repl>" .start (scan "<repl>" text) pieces tail rest ∧ Lexeme.Stuck cause rest ∧
      Highlight.line text = before ++ [⟨Highlight.Group.error.style, Text.trimLeft rest⟩] ∧
      before.flatMap Highlight.Fragment.text ++ Text.trimLeft rest = text ∧
      (∀ f ∈ before, f.style ≠ Highlight.Group.error.style) ∧
      (Text.trimLeft rest = rest ↔ ∀ r, cause = .unrecognized r → r.isBlank = false) := by
  obtain ⟨pieces, tail, rest, hlayout, hfollows⟩ :=
    Scan.scanFrom_layout "<repl>" text .start none [] (Scan.dropped_nil _)
  rw [List.nil_append] at hlayout
  obtain ⟨before, blanks, hshows, -, ⟨pos', hfinished, -⟩ | ⟨cause', pos', hfailed, hstuck, hfound⟩⟩ :=
    Highlight.found_shows hlayout hfollows
  · cases h.symm.trans hfinished
  · obtain ⟨rfl, -⟩ := Ending.failed.inj (h.symm.trans hfailed)
    have hline : Highlight.line text =
        before ++ Highlight.plain blanks ++ [⟨Highlight.Group.error.style, Text.trimLeft rest⟩] := by
      rcases Highlight.line_eq text with hline | ⟨hnil, -⟩
      · rw [hline, hfound]
      · rw [hfound] at hnil
        simp at hnil
    have htext := Highlight.line_text text
    rw [hline, List.flatMap_append] at htext
    refine ⟨pieces, tail, rest, _, hlayout, hfollows, hstuck, hline, by simpa using htext, fun f hf => ?_, ?_⟩
    · exact (List.mem_append.1 hf).elim (hshows.style f) (Highlight.plain_style _ f)
    · obtain ⟨r, more, rfl⟩ := List.exists_cons_of_ne_nil hstuck.ne_nil
      have htrim : Text.trimLeft (r :: more) = r :: more ↔ r.isBlank = false := by
        rw [Text.trimLeft, List.dropWhile_eq_self_iff]
        simp
      rw [htrim]
      rcases hstuck.head with rfl | ⟨hne, hr⟩
      · exact ⟨fun hr c hc => by cases hc; exact hr, fun hall => hall r rfl⟩
      · exact ⟨fun _ c hc => absurd hc (hne c), fun _ => hr⟩

/-- A string that is not closed is marked from its quote on. -/
theorem lexical_faults_highlighted_quote :
    (scan "<repl>" "x = 'open").ending = .failed (.unclosedString .single) ⟨1, 5, "<repl>"⟩ ∧
      ∃ before, Highlight.line "x = 'open" = before ++ [⟨Highlight.Group.error.style, "'open"⟩] ∧
        before.flatMap Highlight.Fragment.text = ("x = " : Text) ∧
        ∀ f ∈ before, f.style ≠ Highlight.Group.error.style := by
  have hfailed : (scan "<repl>" "x = 'open").ending = .failed (.unclosedString .single) ⟨1, 5, "<repl>"⟩ := by
    decide +kernel
  have hlast : (Highlight.line "x = 'open").getLast? = some ⟨Highlight.Group.error.style, "'open"⟩ := by decide +kernel
  obtain ⟨pieces, tail, rest, before, -, -, -, hline, htext, hbefore, -⟩ := lexical_faults_highlighted hfailed
  have hrest : Text.trimLeft rest = "'open" := by
    rw [hline, List.getLast?_concat] at hlast
    exact congrArg Highlight.Fragment.text (Option.some.inj hlast)
  have hsplit : Text.ofString "x = 'open" = Text.ofString "x = " ++ Text.ofString "'open" := by decide
  rw [hrest] at hline htext
  exact ⟨hfailed, before, hline, List.append_cancel_right (htext.trans hsplit), hbefore⟩

/-- A blank that the lexical grammar does not know is where the scan is stuck, and what is marked there is empty. -/
theorem unknown_blank_not_highlighted :
    (scan "<repl>" [0xA0]).ending = .failed (.unrecognized 0xA0) ⟨1, 1, "<repl>"⟩ ∧
      (Highlight.line [0xA0]).getLast? = some ⟨Highlight.Group.error.style, []⟩ := by
  decide +kernel

end Kettle
