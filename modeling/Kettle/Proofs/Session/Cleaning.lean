/-
Complete entries and their invisible runes. Whether an entry is complete is told from what was typed, while what is run
is the entry without its invisible runes. Outside strings and comments an invisible rune is a lexical fault, unless it
is a carriage return; so an entry that can be scanned keeps its tokens when its invisible runes are taken out, as long
as each carriage return has its line feed and no invisible rune is escaped. An entry that cannot be scanned stays so,
as long as it is not an invisible rune that the scan is stuck at, or that keeps the two runes of an operator apart.
-/
import Kettle.Proofs.Token.Layout
import Kettle.Session.Entry
import Mathlib.Data.List.Chain

namespace Kettle

namespace Entry

open Lexeme (isSpace startsWord continuesWord inNumber singles doubles Spells)

variable {kind : Kind} {r : Rune} {t text rest more : Text}

/-! ## Invisible runes -/

/-- All the invisible runes. -/
def invisibles : List Rune := ['\u200b', '\u200c', '\u200d', '\ufeff', '\u00a0', '\r']

theorem mem_invisibles : r ∈ invisibles ↔ isInvisible r = true := by
  simp only [invisibles, isInvisible, List.mem_cons, List.not_mem_nil, or_false, Bool.or_eq_true, decide_eq_true_eq,
    Fin.ext_iff, or_assoc]
  rfl

/-- A rune of a class that no invisible rune is in can be seen. -/
theorem isInvisible_of_class {p : Rune → Bool} (hr : p r = true) (hp : invisibles.any p = false) :
    isInvisible r = false := by
  by_contra h
  have hmem : r ∈ invisibles := mem_invisibles.2 (by simpa using h)
  exact List.any_eq_false.1 hp r hmem hr

theorem isInvisible_of_continuesWord (h : continuesWord r = true) : isInvisible r = false :=
  isInvisible_of_class h (by decide +kernel)

theorem isInvisible_of_startsWord (h : startsWord r = true) : isInvisible r = false :=
  isInvisible_of_continuesWord (by simp [continuesWord, h])

theorem isInvisible_of_inNumber (h : inNumber r = true) : isInvisible r = false :=
  isInvisible_of_class h (by decide +kernel)

theorem isInvisible_of_digit (h : r.isAsciiDigit = true) : isInvisible r = false :=
  isInvisible_of_inNumber (by simp [inNumber, h])

theorem isInvisible_quote (quote : Quote) : isInvisible quote.rune = false := by cases quote <;> decide

theorem isInvisible_single (h : (r, kind) ∈ singles) : isInvisible r = false := by
  have hsingles : ∀ s ∈ singles, isInvisible s.1 = false := by decide
  exact hsingles _ h

theorem isInvisible_double {next : Rune} (h : ((r, next), kind) ∈ doubles) :
    isInvisible r = false ∧ isInvisible next = false := by
  have hdoubles : ∀ d ∈ doubles, isInvisible d.1.1 = false ∧ isInvisible d.1.2 = false := by decide
  exact hdoubles _ h

/-- The only invisible rune that is a blank is the carriage return. -/
theorem eq_return_of_isSpace (h : isInvisible r = true) (hspace : isSpace r = true) : r = '\r' := by
  have hall : invisibles.any (fun c => isSpace c && c ≠ '\r') = false := by decide +kernel
  simpa [hspace] using List.any_eq_false.1 hall r (mem_invisibles.2 h)

/-- No token starts with an invisible rune. -/
theorem isInvisible_head (h : Spells kind (r :: more)) : isInvisible r = false := by
  cases h with
  | word hr => exact isInvisible_of_startsWord hr
  | number hr => exact isInvisible_of_digit hr
  | @string quote => exact isInvisible_quote quote
  | hash => decide
  | slash => decide
  | single h => exact isInvisible_single h
  | double h => exact (isInvisible_double h).1

/-- No token can be taken at an invisible rune. -/
theorem read_invisible (h : isInvisible r = true) (rest : Text) : Lexeme.read r rest = .error (.unrecognized r) := by
  have hvisible : ¬ isInvisible r = false := by simp [h]
  cases Lexeme.opening r rest with
  | hash hr => exact absurd (by rw [hr]; decide) hvisible
  | string hr => exact absurd (by rw [hr]; exact isInvisible_quote _) hvisible
  | digit hr => exact absurd (isInvisible_of_digit hr) hvisible
  | slash hr => exact absurd (by rw [hr]; decide) hvisible
  | double hop => exact absurd (isInvisible_double hop).1 hvisible
  | single hop => exact absurd (isInvisible_single hop) hvisible
  | word hr => exact absurd (isInvisible_of_startsWord hr) hvisible
  | nothing hread => exact hread

/-! ## Taking invisible runes out -/

@[simp] theorem cleaned_nil : cleaned [] = [] := rfl

theorem cleaned_append (s t : Text) : cleaned (s ++ t) = cleaned s ++ cleaned t := List.filter_append ..

theorem cleaned_visible (h : isInvisible r = false) (t : Text) : cleaned (r :: t) = r :: cleaned t := by
  simp [cleaned, h]

theorem cleaned_invisible (h : isInvisible r = true) (t : Text) : cleaned (r :: t) = cleaned t := by
  simp [cleaned, h]

theorem cleaned_eq_self (h : ∀ c ∈ t, isInvisible c = false) : cleaned t = t :=
  List.filter_eq_self.2 fun c hc => by simp [h c hc]

/-! ## Entries that keep their meaning -/

/-- What can stand side by side: a carriage return has its line feed, and no invisible rune is escaped. -/
def Tame (a b : Rune) : Prop := (a = '\r' → b = '\n') ∧ (a = '\\' → isInvisible b = false)

instance : DecidableRel Tame := fun a b =>
  inferInstanceAs (Decidable ((a = '\r' → b = '\n') ∧ (a = '\\' → isInvisible b = false)))

/-- A fault at a rune may be gone with the invisible runes: the rune is invisible itself, or one that can start an
operator and that an invisible one stands behind. -/
def Veiled (text : Text) (r : Rune) : Prop :=
  isInvisible r = true ∨
    (∃ next kind, ((r, next), kind) ∈ doubles) ∧ ∃ c, isInvisible c = true ∧ isSpace c = false ∧ [r, c] <:+: text

theorem Veiled.of_suffix (h : Veiled rest r) (hsuffix : rest <:+ text) : Veiled text r := by
  rcases h with h | ⟨hdouble, c, hc, hspace, hinfix⟩
  · exact .inl h
  · exact .inr ⟨hdouble, c, hc, hspace, hinfix.trans hsuffix.isInfix⟩

/-- A text whose runes can all stand side by side, and whose last carriage return has its line feed, too. -/
structure Neat (text : Text) : Prop where
  chain : text.IsChain Tame
  last : text.getLast? ≠ some ('\r' : Rune)

theorem Neat.of_suffix (h : Neat text) (hsuffix : rest <:+ text) : Neat rest := by
  refine ⟨h.chain.suffix hsuffix, fun hlast => h.last ?_⟩
  obtain ⟨before, rfl⟩ := hsuffix
  rw [List.getLast?_append, hlast]
  rfl

theorem Neat.tail (h : Neat (r :: text)) : Neat text := h.of_suffix (List.suffix_cons r text)

/-- Behind a carriage return comes a line feed. -/
theorem Neat.feed (h : Neat (('\r' : Rune) :: text)) : ∃ rest, text = ('\n' : Rune) :: rest := by
  cases text with
  | nil => exact absurd rfl h.last
  | cons c rest =>
    obtain rfl := (List.isChain_cons_cons.1 h.chain).1.1 rfl
    exact ⟨rest, rfl⟩

theorem cleaned_return (h : Neat (('\r' : Rune) :: text)) :
    ∃ rest, cleaned (('\r' : Rune) :: text) = ('\n' : Rune) :: cleaned rest := by
  obtain ⟨rest, rfl⟩ := h.feed
  rw [cleaned_invisible (by decide), cleaned_visible (by decide)]
  exact ⟨rest, rfl⟩

end Entry

namespace Lexeme

open Entry (isInvisible cleaned cleaned_visible cleaned_invisible cleaned_append cleaned_eq_self cleaned_return Tame
  Veiled Neat)

variable {kind : Kind} {cause : LexicalCause} {quote : Quote} {r : Rune} {t rest : Text}

/-! ## Tokens without their invisible runes -/

theorem Inside.cleaned (h : Inside quote t) (hchain : t.IsChain Tame) : Inside quote (Entry.cleaned t) := by
  induction h with
  | nil => exact .nil
  | @plain r t hr hescape _ ih =>
    cases hvisible : isInvisible r with
    | true =>
      rw [cleaned_invisible hvisible]
      exact ih hchain.tail
    | false =>
      rw [cleaned_visible hvisible]
      exact .plain hr hescape (ih hchain.tail)
  | @escape r t hescape _ ih =>
    have hvisible : isInvisible r = false := (List.isChain_cons_cons.1 hchain).1.2 rfl
    rw [cleaned_visible (by decide), cleaned_visible hvisible]
    exact .escape hescape (ih hchain.tail.tail)

theorem cleaned_number (h : Spells .number t) : cleaned t = t := by
  obtain ⟨r, more, rfl, hr, hmore, -⟩ := h.of_number
  exact cleaned_eq_self (List.forall_mem_cons.2 ⟨Entry.isInvisible_of_digit hr,
    fun c hc => Entry.isInvisible_of_inNumber (hmore c hc)⟩)

/-- Without its invisible runes a text spells the same kind of token, and only of a comment a single rune can be left
over. -/
theorem Spells.cleaned (h : Spells kind t) (hchain : t.IsChain Tame) :
    Spells kind (Entry.cleaned t) ∧ ∀ r, Entry.cleaned t = [r] → t = [r] ∨ r = '#' := by
  have hvisible : Entry.cleaned t = t →
      Spells kind (Entry.cleaned t) ∧ ∀ r, Entry.cleaned t = [r] → t = [r] ∨ r = '#' := by
    intro hself
    rw [hself]
    exact ⟨h, fun r hr => .inl hr⟩
  have hline : ∀ {more : Text}, (∀ c ∈ more, isBreak c = false) → ∀ c ∈ Entry.cleaned more, isBreak c = false :=
    fun hmore c hc => hmore c (List.mem_of_mem_filter hc)
  cases h with
  | word hr hmore =>
    exact hvisible (cleaned_eq_self (List.forall_mem_cons.2 ⟨Entry.isInvisible_of_startsWord hr,
      fun c hc => Entry.isInvisible_of_continuesWord (hmore c hc)⟩))
  | number hr hmore hpoint => exact hvisible (cleaned_number (.number hr hmore hpoint))
  | @string quote body hbody =>
    have hquote := Entry.isInvisible_quote quote
    rw [cleaned_visible hquote, cleaned_append, cleaned_visible hquote []]
    exact ⟨.string (hbody.cleaned hchain.tail.left_of_append), by simp⟩
  | hash hmore =>
    rw [cleaned_visible (by decide)]
    exact ⟨.hash (hline hmore), fun r hr => .inr (List.cons.inj hr).1.symm⟩
  | slash hmore =>
    rw [cleaned_visible (by decide), cleaned_visible (by decide)]
    exact ⟨.slash (hline hmore), by simp⟩
  | single h => exact hvisible (cleaned_eq_self (by simpa using Entry.isInvisible_single h))
  | double h => exact hvisible (cleaned_eq_self (by simpa using Entry.isInvisible_double h))

/-- A token ends where it did, if no invisible rune but a carriage return stands there. -/
theorem Ends.cleaned (h : Ends kind t rest) (hone : ∀ r, Entry.cleaned t = [r] → t = [r] ∨ r = '#') (hrest : Neat rest)
    (hhead : ∀ c ∈ rest.head?, isInvisible c = true → c = '\r') : Ends kind (Entry.cleaned t) (Entry.cleaned rest) := by
  cases rest with
  | nil => simp [Ends]
  | cons c rest =>
    cases hvisible : isInvisible c with
    | true =>
      obtain rfl := hhead c rfl hvisible
      obtain ⟨after, hafter⟩ := cleaned_return hrest
      rw [hafter]
      exact Scan.ends_space (by decide) (fun _ => by decide) _ _
    | false =>
      rw [cleaned_visible hvisible]
      rintro next ⟨⟩
      obtain ⟨hword, hnumber, hcomment, hlone⟩ := h c rfl
      refine ⟨hword, hnumber, hcomment, fun r hr => ?_⟩
      rcases hone r hr with htext | rfl
      · exact hlone r htext
      · have hdoubles : ∀ d ∈ doubles, d.1.1 ≠ '#' := by decide
        refine ⟨fun op hop => hdoubles _ hop rfl, ?_⟩
        rintro ⟨hslash, -⟩
        exact absurd hslash (by decide)

/-! ## Faults without their invisible runes -/

theorem Cut.cleaned (h : Cut quote rest) (hrest : Neat rest) : Cut quote (Entry.cleaned rest) := by
  cases h with
  | text => exact .text
  | escape hescape => exact .escape hescape
  | line hescape hr =>
    rcases hr with rfl | rfl
    · rw [cleaned_visible (by decide)]
      exact .line hescape (.inl rfl)
    · obtain ⟨after, hafter⟩ := cleaned_return hrest
      rw [hafter]
      exact .line hescape (.inl rfl)

/-- A rune that starts no token starts none without the invisible runes either, unless one of them stands between it and
the second rune of an operator. -/
theorem read_unrecognized (hquote : ∀ quote : Quote, r ≠ quote.rune)
    (h : ∀ kind text, Spells kind text → ¬ text <+: r :: rest) (hneat : Neat rest) (hveiled : ¬ Veiled (r :: rest) r) :
    read r (cleaned rest) = .error (.unrecognized r) := by
  -- a token of one rune would be there already
  have hone : ∀ kind, ¬ Spells kind [r] := fun kind hspells => h kind [r] hspells ⟨rest, rfl⟩
  generalize hclean : cleaned rest = text
  cases opening r text with
  | hash hr => exact absurd (by rw [hr]; exact .hash (by simp)) (hone .hashComment)
  | @string text quote hr => exact absurd hr (hquote quote)
  | digit hr => exact absurd (.number hr (by simp) (by simp)) (hone .number)
  | slash hr => exact absurd (.single (by rw [hr]; decide)) (hone .slash)
  | single hr => exact absurd (.single hr) (hone _)
  | word hr => exact absurd (.word hr (by simp)) (hone .ident)
  | nothing hread => exact hread
  | @double next after kind hdouble =>
    cases rest with
    | nil => cases hclean
    | cons c rest =>
      cases hvisible : isInvisible c with
      | false =>
        rw [cleaned_visible hvisible] at hclean
        obtain ⟨rfl, -⟩ := List.cons.inj hclean
        exact absurd ⟨rest, rfl⟩ (h kind [r, c] (.double hdouble))
      | true =>
        cases hspace : isSpace c with
        | false =>
          exact absurd (.inr ⟨⟨next, kind, hdouble⟩, c, hvisible, hspace, ⟨[], rest, rfl⟩⟩) hveiled
        | true =>
          have hdoubles : ∀ d ∈ doubles, d.1.2 ≠ '\n' := by decide
          obtain rfl := Entry.eq_return_of_isSpace hvisible hspace
          obtain ⟨after, hafter⟩ := cleaned_return hneat
          rw [hafter] at hclean
          obtain ⟨rfl, -⟩ := List.cons.inj hclean
          exact absurd rfl (hdoubles _ hdouble)

/-- Where no token can be taken, none can be taken without the invisible runes either. -/
theorem Stuck.cleaned (h : Stuck cause t) (hneat : Neat t) (hveiled : ∀ c, cause = .unrecognized c → ¬ Veiled t c) :
    Stuck cause (Entry.cleaned t) := by
  cases h with
  | @unrecognized r rest hspace hquote h =>
    have hr : ¬ Veiled (r :: rest) r := hveiled r rfl
    have hvisible : isInvisible r = false := by
      by_contra hinvisible
      exact hr (.inl (by simpa using hinvisible))
    rw [cleaned_visible hvisible]
    exact stuck_of_read hspace (read_unrecognized hquote h hneat.tail hr)
  | secondPoint hnumber hpoint =>
    rw [cleaned_append, cleaned_number hnumber, cleaned_visible (by decide)]
    exact .secondPoint hnumber hpoint
  | letter hnumber hr =>
    rw [cleaned_append, cleaned_number hnumber, cleaned_visible (Entry.isInvisible_of_startsWord hr)]
    exact .letter hnumber hr
  | @unclosed quote body rest hbody hrest =>
    rw [cleaned_visible (Entry.isInvisible_quote quote), cleaned_append]
    exact .unclosed (hbody.cleaned hneat.tail.chain.left_of_append)
      (hrest.cleaned (hneat.tail.of_suffix (List.suffix_append body rest)))

end Lexeme

/-- Whether a scan was stuck. -/
def Ending.isFailed : Ending → Bool
  | finished _ => false
  | failed .. => true

namespace Scan

open Entry (isInvisible cleaned cleaned_visible cleaned_invisible cleaned_append Veiled Neat)

/-! ## Scanning without the invisible runes -/

/-- Two scans with tokens of the same kinds, which are both stuck in the end or both not. -/
structure Alike (s s' : Scan) : Prop where
  kinds : s'.tokens.map Token.kind = s.tokens.map Token.kind
  ending : s'.ending.isFailed = s.ending.isFailed

theorem Alike.cons {s s' : Scan} {t t' : Token} (h : Alike s s') (hkind : t'.kind = t.kind) :
    Alike (s.cons t) (s'.cons t') := by
  refine ⟨?_, h.ending⟩
  show t'.kind :: s'.tokens.map Token.kind = t.kind :: s.tokens.map Token.kind
  rw [hkind, h.kinds]

/-- The faults of a scan are not due to invisible runes. -/
def Unveiled (s : Scan) (text : Text) : Prop := ∀ c pos, s.ending = .failed (.unrecognized c) pos → ¬ Veiled text c

theorem Unveiled.of_suffix {s : Scan} {text rest : Text} (h : Unveiled s text) (hsuffix : rest <:+ text) :
    Unveiled s rest :=
  fun c pos hending hc => h c pos hending (hc.of_suffix hsuffix)

/-- An invisible rune where a blank or a token should start is a fault, if it is no carriage return. -/
theorem Unveiled.head {source rest : Text} {cursor : Cursor} {last : Option Kind} {c : Rune}
    (h : Unveiled (scanFrom source cursor last (c :: rest)) (c :: rest)) (hc : isInvisible c = true) : c = '\r' := by
  cases hspace : Lexeme.isSpace c with
  | true => exact Entry.eq_return_of_isSpace hc hspace
  | false =>
    rw [scanFrom_error hspace (Entry.read_invisible hc rest)] at h
    exact absurd (.inl hc) (h c _ rfl)

/-- The induction goes along the tokens. A carriage return that ends a statement leaves that to its line feed, which
has been a mere blank before. -/
theorem scanFrom_cleaned (source text : Text) : ∀ (cursor cursor' : Cursor) (last : Option Kind), Neat text →
    Unveiled (scanFrom source cursor last text) text →
    Alike (scanFrom source cursor last text) (scanFrom source cursor' last (cleaned text)) := by
  induction text using inductionOn with
  | nil =>
    intro cursor cursor' last hneat hclear
    rw [Entry.cleaned_nil, scanFrom_nil, scanFrom_nil]
    exact ⟨rfl, rfl⟩
  | space r rest hspace ih =>
    intro cursor cursor' last hneat hclear
    have hsuffix : rest <:+ r :: rest := List.suffix_cons r rest
    rw [scanFrom_space hspace] at hclear ⊢
    by_cases hbreak : (Lexeme.isBreak r && last.any Kind.endsStatement) = true
    · rw [if_pos hbreak] at hclear ⊢
      have hrest := fun cursor' =>
        ih (cursor.step r) cursor' (some .separator) hneat.tail (Unveiled.of_suffix hclear hsuffix)
      cases hvisible : isInvisible r with
      | false =>
        rw [cleaned_visible hvisible, scanFrom_space hspace, if_pos hbreak]
        exact (hrest _).cons rfl
      | true =>
        obtain rfl := Entry.eq_return_of_isSpace hvisible hspace
        obtain ⟨after, rfl⟩ := hneat.feed
        have hblank : scanFrom source cursor' (some .separator) (('\n' : Rune) :: cleaned after) =
            scanFrom source (cursor'.step '\n') (some .separator) (cleaned after) := by
          rw [scanFrom_space (by decide), if_neg (by decide)]
        have hends : (Lexeme.isBreak '\n' && last.any Kind.endsStatement) = true := hbreak
        have hfeed : scanFrom source cursor' last (('\n' : Rune) :: cleaned after) =
            cons ⟨.separator, [('\n' : Rune)], cursor'.position source⟩
              (scanFrom source (cursor'.step '\n') (some .separator) (cleaned after)) := by
          rw [scanFrom_space (by decide), if_pos hends]
        have hafter := hrest cursor'
        rw [cleaned_visible (by decide), hblank] at hafter
        rw [cleaned_invisible (by decide), cleaned_visible (by decide), hfeed]
        exact hafter.cons rfl
    · rw [if_neg hbreak] at hclear ⊢
      have hrest := fun cursor' => ih (cursor.step r) cursor' last hneat.tail (hclear.of_suffix hsuffix)
      cases hvisible : isInvisible r with
      | false =>
        rw [cleaned_visible hvisible, scanFrom_space hspace, if_neg hbreak]
        exact hrest _
      | true =>
        rw [cleaned_invisible hvisible]
        exact hrest cursor'
  | error r rest cause hspace hread =>
    intro cursor cursor' last hneat hclear
    have hvisible : isInvisible r = false := by
      by_contra hinvisible
      obtain rfl := hclear.head (by simpa using hinvisible)
      cases hspace
    rw [scanFrom_error hspace hread] at hclear ⊢
    have hstuck := (Lexeme.stuck_of_read hspace hread).cleaned hneat fun c hc => hclear c _ (by rw [hc])
    rw [cleaned_visible hvisible] at hstuck ⊢
    rw [scanFrom_error hspace (Lexeme.read_of_stuck hstuck)]
    exact ⟨rfl, rfl⟩
  | lexeme r rest l hspace hread ih =>
    intro cursor cursor' last hneat hclear
    have htext : r :: rest = r :: l.more ++ l.rest := by rw [List.cons_append, Lexeme.read_append hread]
    have hsuffix : l.rest <:+ r :: rest := ⟨r :: l.more, htext.symm⟩
    have htaken := Lexeme.taken_of_read hspace hread
    rw [scanFrom_lexeme hspace hread] at hclear ⊢
    have hrest : Unveiled (scanFrom source (cursor.advance (r :: l.more))
        (if l.kind.isComment then last else some l.kind) l.rest) l.rest := Unveiled.of_suffix hclear hsuffix
    have hhead : ∀ c ∈ l.rest.head?, isInvisible c = true → c = '\r' := by
      intro c hc hinvisible
      obtain ⟨after, hafter⟩ := List.head?_eq_some_iff.1 hc
      rw [hafter] at hrest
      exact hrest.head hinvisible
    have hchain : (r :: l.more ++ l.rest).IsChain Entry.Tame := htext ▸ hneat.chain
    obtain ⟨hspells, hone⟩ := htaken.spells.cleaned hchain.left_of_append
    have hends := htaken.ends.cleaned hone (hneat.of_suffix hsuffix) hhead
    have hvisible := Entry.isInvisible_head htaken.spells
    rw [cleaned_visible hvisible] at hspells hends
    rw [htext, cleaned_append, cleaned_visible hvisible, List.cons_append,
      scanFrom_lexeme hspace (Lexeme.read_of_spells hspells hends)]
    exact (ih _ _ _ (hneat.of_suffix hsuffix) hrest).cons rfl

end Scan

namespace Entry

variable {entry entry' : Text}

/-- Whether an entry is complete is told by the kinds of its tokens and by whether it can be scanned. -/
theorem isRunnable_alike (h : Scan.Alike (scanned entry) (scanned entry')) : isRunnable entry' = isRunnable entry := by
  have hending := h.ending
  unfold isRunnable
  dsimp only
  rw [h.kinds]
  generalize (scanned entry).ending = e, (scanned entry').ending = e' at hending
  cases e <;> cases e' <;> first | rfl | cases hending

theorem neat_entry (h : (entry ++ "\n").IsChain Tame) : Neat (entry ++ "\n") := by
  refine ⟨h, ?_⟩
  have hfeed : Text.ofString "\n" = [('\n' : Rune)] := rfl
  rw [hfeed, List.getLast?_concat]
  decide

end Entry

/-- Taking the invisible runes out of an entry changes neither whether it can be scanned nor whether it is complete, if
each carriage return has its line feed, no invisible rune is escaped, and the scan is not stuck because of one that is
taken out. -/
theorem completeness_survives_cleaning {entry : Text} (htame : (entry ++ "\n").IsChain Entry.Tame)
    (hclear : Scan.Unveiled (Entry.scanned entry) (entry ++ "\n")) :
    (Entry.scanned (Entry.cleaned entry)).ending.isFailed = (Entry.scanned entry).ending.isFailed ∧
      Entry.isRunnable (Entry.cleaned entry) = Entry.isRunnable entry := by
  have hfeed : Entry.cleaned entry ++ Text.ofString "\n" = Entry.cleaned (entry ++ "\n") := by
    rw [Entry.cleaned_append]
    rfl
  have halike : Scan.Alike (Entry.scanned entry) (Entry.scanned (Entry.cleaned entry)) := by
    unfold Entry.scanned scan
    rw [hfeed]
    exact Scan.scanFrom_cleaned _ _ _ _ _ (Entry.neat_entry htame) hclear
  exact ⟨halike.ending, Entry.isRunnable_alike halike⟩

/-- An entry of three lines, with carriage returns and with a rune that cannot be seen in its comment. -/
theorem completeness_survives_cleaning_lines :
    Entry.isRunnable "f = (\r\n1 # one\u200b\r\n)" = true ∧
      Entry.cleaned "f = (\r\n1 # one\u200b\r\n)" = "f = (\n1 # one\n)" ∧
      Entry.isRunnable "f = (\n1 # one\n)" = true := by
  have hcleaned : Entry.cleaned "f = (\r\n1 # one\u200b\r\n)" = "f = (\n1 # one\n)" := by decide +kernel
  have hrunnable : Entry.isRunnable "f = (\r\n1 # one\u200b\r\n)" = true := by decide +kernel
  have hclear : Scan.Unveiled (Entry.scanned "f = (\r\n1 # one\u200b\r\n)")
      (Text.ofString "f = (\r\n1 # one\u200b\r\n)" ++ "\n") := by
    intro r pos hfailed
    have hfinished : (Entry.scanned "f = (\r\n1 # one\u200b\r\n)").ending.isFailed = false := by
      decide +kernel
    rw [hfailed] at hfinished
    cases hfinished
  have hsame := (completeness_survives_cleaning (by decide +kernel) hclear).2
  rw [hcleaned] at hsame
  exact ⟨hrunnable, hcleaned, hsame.trans hrunnable⟩

/-- What is complete as it was typed can be incomplete as it is run: the fault at an invisible rune is gone and a bracket
is open, a comment goes on where a carriage return ended it, the two runes of an operator come together, or a string
goes on where its last quote was not escaped. -/
theorem complete_until_cleaned :
    (["(\u200b", "#\rx", "(:\u200b= 1", "\"\\\u200b\" '\"(' # '"] : List Text).all
      (fun entry => Entry.isRunnable entry && !Entry.isRunnable (Entry.cleaned entry)) = true := by
  decide +kernel

end Kettle
