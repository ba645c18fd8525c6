/-
The lexical grammar, and reading by it. A text spells a token of a kind or it does not, whatever is
around it; `Lexeme.read` takes the longest text at its place that spells a token, and it finds none
exactly at the places that are stuck: at a rune no token starts with, at a number that runs into a
second point or a letter, and at a string that is never closed.
-/
import Kettle.Token.Lexeme
import Mathlib.Data.List.TakeWhile
import Mathlib.Tactic.Common

namespace Kettle.Lexeme

/-! ## The lexical grammar -/

/-- The inside of a string: it holds no quote of its own. Where there are escapes, a backslash takes
the rune after it along, and no line break stands by itself. -/
inductive Inside (quote : Quote) : Text → Prop where
  | nil : Inside quote []
  | plain {r : Rune} {t : Text} (hr : r ≠ quote.rune)
      (hescape : quote.isEscaped = true → r ≠ '\\' ∧ r ≠ '\n' ∧ r ≠ '\r') (ht : Inside quote t) :
      Inside quote (r :: t)
  | escape {r : Rune} {t : Text} (hescape : quote.isEscaped = true) (ht : Inside quote t) :
      Inside quote (('\\' : Rune) :: r :: t)

/-- What may stand in a number after its first digit. -/
def inNumber (r : Rune) : Bool := r.isAsciiDigit || r = '.'

/-- The texts of tokens, by kind. -/
inductive Spells : Kind → Text → Prop where
  | word {r : Rune} {more : Text} (hr : startsWord r = true) (hmore : ∀ c ∈ more, continuesWord c = true) :
      Spells .ident (r :: more)
  | number {r : Rune} {more : Text} (hr : r.isAsciiDigit = true) (hmore : ∀ c ∈ more, inNumber c = true)
      (hpoint : more.count ('.' : Rune) ≤ 1) : Spells .number (r :: more)
  | string {quote : Quote} {body : Text} (hbody : Inside quote body) :
      Spells quote.kind (quote.rune :: (body ++ [quote.rune]))
  | hash {more : Text} (hmore : ∀ c ∈ more, isBreak c = false) : Spells .hashComment (('#' : Rune) :: more)
  | slash {more : Text} (hmore : ∀ c ∈ more, isBreak c = false) :
      Spells .slashComment (('/' : Rune) :: ('/' : Rune) :: more)
  | single {r : Rune} {kind : Kind} (h : (r, kind) ∈ singles) : Spells kind [r]
  | double {r next : Rune} {kind : Kind} (h : ((r, next), kind) ∈ doubles) : Spells kind [r, next]

/-- What may not follow a token: a rune that would go on with its name, number or comment, or that
would make an operator of two runes, or a comment, of its one rune. -/
def Ends (kind : Kind) (text rest : Text) : Prop :=
  ∀ next ∈ rest.head?,
    (kind = .ident → continuesWord next = false) ∧
    (kind = .number → next.isAsciiDigit = false ∧ next ≠ '.' ∧ startsWord next = false) ∧
    (kind.isComment = true → isBreak next = true) ∧
    ∀ r, text = [r] → (∀ op, ((r, next), op) ∉ doubles) ∧ ¬ (r = '/' ∧ next = '/')

/-- How a string goes on that is cut off: the text ends, be it in the middle of an escape, or the line
ends where there are escapes. -/
inductive Cut (quote : Quote) : Text → Prop where
  | text : Cut quote []
  | escape (hescape : quote.isEscaped = true) : Cut quote [('\\' : Rune)]
  | line {r : Rune} {rest : Text} (hescape : quote.isEscaped = true) (hr : r = '\n' ∨ r = '\r') :
      Cut quote (r :: rest)

/-- The places where no token can be taken. -/
inductive Stuck : LexicalCause → Text → Prop where
  | unrecognized {r : Rune} {rest : Text} (hspace : isSpace r = false) (hquote : ∀ quote : Quote, r ≠ quote.rune)
      (h : ∀ kind text, Spells kind text → ¬ text <+: r :: rest) : Stuck (.unrecognized r) (r :: rest)
  | secondPoint {number rest : Text} (hnumber : Spells .number number) (hpoint : ('.' : Rune) ∈ number) :
      Stuck .secondPoint (number ++ ('.' : Rune) :: rest)
  | letter {number rest : Text} {r : Rune} (hnumber : Spells .number number) (hr : startsWord r = true) :
      Stuck (.letterInNumber r) (number ++ r :: rest)
  | unclosed {quote : Quote} {body rest : Text} (hbody : Inside quote body) (hrest : Cut quote rest) :
      Stuck (.unclosedString quote) (quote.rune :: (body ++ rest))

/-- A token taken at its place: its text spells a token, nothing longer at that place does, it ends
where it must, and the place is not stuck. -/
structure Taken (kind : Kind) (text rest : Text) : Prop where
  spells : Spells kind text
  longest : ∀ kind' text', Spells kind' text' → text' <+: text ++ rest → text'.length ≤ text.length
  ends : Ends kind text rest
  free : ∀ cause, ¬ Stuck cause (text ++ rest)

/-! ## Rune classes -/

theorem startsWord_quote (quote : Quote) : startsWord quote.rune = false := by cases quote <;> decide

theorem isSpace_quote (quote : Quote) : isSpace quote.rune = false := by cases quote <;> decide

theorem ofRune?_eq_some_iff {r : Rune} {quote : Quote} : Quote.ofRune? r = some quote ↔ r = quote.rune := by
  constructor
  · intro h
    unfold Quote.ofRune? at h
    split at h
    · cases h; assumption
    · split at h
      · cases h; assumption
      · split at h
        · cases h; assumption
        · cases h
  · rintro rfl
    cases quote <;> rfl

theorem ofRune?_eq_none {r : Rune} (h : ∀ quote : Quote, r ≠ quote.rune) : Quote.ofRune? r = none := by
  cases hq : Quote.ofRune? r with
  | none => rfl
  | some quote => exact absurd (ofRune?_eq_some_iff.1 hq) (h quote)

theorem ne_of_class {p : Rune → Bool} {r c : Rune} (hr : p r = true) (hc : p c = false) : r ≠ c := by
  rintro rfl
  rw [hr] at hc
  cases hc

theorem isSpace_of_isBreak {r : Rune} (h : isBreak r = true) : isSpace r = true := by
  simp only [isBreak, isSpace, Bool.or_eq_true] at h ⊢
  tauto

theorem startsWord_of_digit {r : Rune} (h : r.isAsciiDigit = true) : startsWord r = false := by
  have hdigit : 0x30 ≤ r.val ∧ r.val ≤ 0x39 := by simpa [Rune.isAsciiDigit] using h
  have hunder : r ≠ '_' := ne_of_class h (by decide)
  have hletter : r.isLetter = false := by
    unfold Rune.isLetter
    rw [if_pos (by omega)]
    simp only [Bool.or_eq_false_iff, Bool.and_eq_false_iff, decide_eq_false_iff_not]
    omega
  simp [startsWord, hunder, hletter]

theorem lookup_doubles {r next : Rune} {kind : Kind} :
    doubles.lookup (r, next) = some kind ↔ ((r, next), kind) ∈ doubles := by
  constructor
  · intro h
    obtain ⟨l, l', hl, -⟩ := List.lookup_eq_some_iff.1 h
    simp [hl]
  · have hall : ∀ d ∈ doubles, doubles.lookup d.1 = some d.2 := by decide
    exact fun h => hall _ h

theorem lookup_singles {r : Rune} {kind : Kind} : singles.lookup r = some kind ↔ (r, kind) ∈ singles := by
  constructor
  · intro h
    obtain ⟨l, l', hl, -⟩ := List.lookup_eq_some_iff.1 h
    simp [hl]
  · have hall : ∀ d ∈ singles, singles.lookup d.1 = some d.2 := by decide
    exact fun h => hall _ h

/-! ## Numbers -/

theorem extend_extend (t t' : Text) (x : Except LexicalCause Lexeme) :
    (x.map (extend t')).map (extend t) = x.map (extend (t ++ t')) := by
  cases x with
  | error cause => rfl
  | ok l => simp [Except.map, extend]

/-- Digits and points are read one after the other, as long as there is one point at most. -/
theorem number_body {point : Bool} {more : Text} (hmore : ∀ c ∈ more, inNumber c = true)
    (hpoint : more.count ('.' : Rune) ≤ if point then 0 else 1) (rest : Text) :
    number point (more ++ rest) = (number (point || more.contains ('.' : Rune)) rest).map (extend more) := by
  induction more generalizing point with
  | nil =>
    have hnil : ∀ x : Except LexicalCause Lexeme, x.map (extend []) = x := by
      intro x
      cases x <;> rfl
    simp [hnil]
  | cons c more ih =>
    have hmore' : ∀ c ∈ more, inNumber c = true := fun c' hc' => hmore c' (by simp [hc'])
    rw [List.cons_append, number]
    by_cases hdot : c = '.'
    · subst hdot
      have hdigit : ¬ Rune.isAsciiDigit '.' = true := by decide
      rw [List.count_cons_self] at hpoint
      obtain rfl : point = false := by
        cases point with
        | true => simp at hpoint
        | false => rfl
      rw [if_neg hdigit, if_pos rfl, if_neg (by simp), ih hmore' (by simpa using hpoint), extend_extend]
      simp
    · have hdigit : c.isAsciiDigit = true := by simpa [inNumber, hdot] using hmore c (by simp)
      rw [List.count_cons_of_ne hdot] at hpoint
      rw [if_pos hdigit, ih hmore' hpoint, extend_extend]
      simp [Ne.symm hdot]

theorem number_end {point : Bool} {rest : Text}
    (h : ∀ next ∈ rest.head?, next.isAsciiDigit = false ∧ next ≠ '.' ∧ startsWord next = false) :
    number point rest = .ok ⟨.number, [], rest⟩ := by
  cases rest with
  | nil => rfl
  | cons next after =>
    obtain ⟨hdigit, hdot, hword⟩ := h next rfl
    simp [number, hdigit, hdot, hword]

theorem number_letter {r : Rune} (hr : startsWord r = true) (point : Bool) (rest : Text) :
    number point (r :: rest) = .error (.letterInNumber r) := by
  have hdigit : ¬ r.isAsciiDigit = true := fun hd => by rw [startsWord_of_digit hd] at hr; cases hr
  have hdot : r ≠ '.' := ne_of_class hr (by decide)
  rw [number, if_neg hdigit, if_neg hdot, if_pos hr]

/-- How a number goes on after its first digit: digits and points, with one point at most, and then it
ends, or it runs into a second point or a letter. -/
theorem number_cases (point : Bool) (text : Text) :
    ∃ more rest, text = more ++ rest ∧ (∀ c ∈ more, inNumber c = true) ∧
      more.count ('.' : Rune) ≤ (if point then 0 else 1) ∧
      ((number point text = .ok ⟨.number, more, rest⟩ ∧
          ∀ next ∈ rest.head?, next.isAsciiDigit = false ∧ next ≠ '.' ∧ startsWord next = false) ∨
        (number point text = .error .secondPoint ∧ (point || more.contains ('.' : Rune)) = true ∧
          ∃ after, rest = ('.' : Rune) :: after) ∨
        ∃ r after, number point text = .error (.letterInNumber r) ∧ startsWord r = true ∧ rest = r :: after) := by
  have hextend : ∀ {x : Except LexicalCause Lexeme} {c : Rune} {more rest : Text},
      x = .ok ⟨.number, more, rest⟩ → x.map (extend [c]) = .ok ⟨.number, c :: more, rest⟩ := by
    rintro _ c more rest rfl
    rfl
  have hfail : ∀ {x : Except LexicalCause Lexeme} {c : Rune} {cause : LexicalCause},
      x = .error cause → x.map (extend [c]) = .error cause := by
    rintro _ c cause rfl
    rfl
  induction point, text using number_induct with
  | nil => exact ⟨[], [], rfl, by simp, by simp, .inl ⟨rfl, by simp⟩⟩
  | digit point c text hdigit ih =>
    have hne : c ≠ '.' := ne_of_class hdigit (by decide)
    obtain ⟨more, rest, rfl, hmore, hcount, hrest⟩ := ih
    refine ⟨c :: more, rest, rfl, by simpa [inNumber, hdigit] using hmore, by rwa [List.count_cons_of_ne hne], ?_⟩
    rcases hrest with ⟨hok, hnext⟩ | ⟨herror, hpoint, hnext⟩ | ⟨r, after, herror, hr, hnext⟩
    · exact .inl ⟨hextend hok, hnext⟩
    · exact .inr (.inl ⟨hfail herror, by simpa [Ne.symm hne] using hpoint, hnext⟩)
    · exact .inr (.inr ⟨r, after, hfail herror, hr, hnext⟩)
  | secondPoint text => exact ⟨[], _, rfl, by simp, by simp, .inr (.inl ⟨rfl, rfl, text, rfl⟩)⟩
  | point point text hpoint _ ih =>
    obtain rfl : point = false := by simpa using hpoint
    obtain ⟨more, rest, rfl, hmore, hcount, hrest⟩ := ih
    refine ⟨('.' : Rune) :: more, rest, rfl, by simpa [inNumber] using hmore, by simpa using hcount, ?_⟩
    rcases hrest with ⟨hok, hnext⟩ | ⟨herror, -, hnext⟩ | ⟨r, after, herror, hr, hnext⟩
    · exact .inl ⟨hextend hok, hnext⟩
    · exact .inr (.inl ⟨hfail herror, by simp, hnext⟩)
    · exact .inr (.inr ⟨r, after, hfail herror, hr, hnext⟩)
  | letter point r text _ _ hr => exact ⟨[], _, rfl, by simp, by simp, .inr (.inr ⟨r, text, rfl, hr, rfl⟩)⟩
  | ending point r text hdigit hdot hr =>
    refine ⟨[], _, rfl, by simp, by simp, .inl ⟨rfl, ?_⟩⟩
    rintro next ⟨⟩
    exact ⟨by simpa using hdigit, hdot, by simpa using hr⟩

/-! ## Strings -/

/-- The inside of a string is read rune by rune. -/
theorem quoted_body {quote : Quote} {body : Text} (h : Inside quote body) (rest : Text) :
    quoted quote (body ++ rest) = (quoted quote rest).map (extend body) := by
  induction h with
  | nil => cases h : quoted quote rest <;> simp [h, Except.map, extend]
  | @plain r t hr hescape _ ih =>
    have hbreak : ¬ (quote.isEscaped && (r = '\n' || r = '\r')) = true := by
      cases he : quote.isEscaped with
      | false => simp
      | true => simp [hescape he]
    have hslash : ¬ (quote.isEscaped && r = '\\') = true := by
      cases he : quote.isEscaped with
      | false => simp
      | true => simp [hescape he]
    rw [List.cons_append, quoted.eq_def]
    simp only [if_neg hbreak, if_neg hslash, if_neg hr]
    rw [ih, extend_extend]
    rfl
  | @escape r t hescape _ ih =>
    rw [List.cons_append, List.cons_append, quoted.eq_def]
    simp only [hescape]
    rw [ih]
    exact extend_extend _ _ _

theorem quoted_closed {quote : Quote} {body : Text} (h : Inside quote body) (rest : Text) :
    quoted quote (body ++ quote.rune :: rest) = .ok ⟨quote.kind, body ++ [quote.rune], rest⟩ := by
  have hbreak : ¬ (quote.isEscaped && (quote.rune = '\n' || quote.rune = '\r')) = true := by
    cases quote <;> decide
  have hslash : ¬ (quote.isEscaped && quote.rune = '\\') = true := by cases quote <;> decide
  rw [quoted_body h, quoted.eq_def]
  simp only [if_neg hbreak, if_neg hslash, if_true]
  rfl

theorem quoted_cut {quote : Quote} {body rest : Text} (h : Inside quote body) (hrest : Cut quote rest) :
    quoted quote (body ++ rest) = .error (.unclosedString quote) := by
  rw [quoted_body h]
  cases hrest with
  | text => rfl
  | escape hescape =>
    rw [quoted.eq_def]
    simp only [hescape]
    rfl
  | @line r rest hescape hr =>
    have hbreak : (quote.isEscaped && (r = '\n' || r = '\r')) = true := by simpa [hescape] using hr
    rw [quoted.eq_def]
    simp only [hbreak, if_true]
    rfl

/-- A text is the inside of a string up to its closing quote, or up to where it is cut off. -/
theorem inside_split (quote : Quote) (text : Text) :
    ∃ body rest, text = body ++ rest ∧ Inside quote body ∧ (Cut quote rest ∨ ∃ after, rest = quote.rune :: after) := by
  induction text using quoted_induct quote with
  | nil => exact ⟨[], [], rfl, .nil, .inl .text⟩
  | lineBreak r rest hbreak =>
    simp only [Bool.and_eq_true, Bool.or_eq_true, decide_eq_true_eq] at hbreak
    exact ⟨[], r :: rest, rfl, .nil, .inl (.line hbreak.1 hbreak.2)⟩
  | loneEscape r _ hesc =>
    simp only [Bool.and_eq_true, decide_eq_true_eq] at hesc
    obtain ⟨hescape, rfl⟩ := hesc
    exact ⟨[], _, rfl, .nil, .inl (.escape hescape)⟩
  | escape r _ hesc next after ih =>
    simp only [Bool.and_eq_true, decide_eq_true_eq] at hesc
    obtain ⟨hescape, rfl⟩ := hesc
    obtain ⟨body, rest, rfl, hbody, hrest⟩ := ih
    exact ⟨_, rest, rfl, .escape hescape hbody, hrest⟩
  | closing rest => exact ⟨[], _, rfl, .nil, .inr ⟨rest, rfl⟩⟩
  | plain r rest hbreak hesc hquote ih =>
    obtain ⟨body, rest, rfl, hbody, hrest⟩ := ih
    refine ⟨r :: body, rest, rfl, .plain hquote (fun he => ?_) hbody, hrest⟩
    simpa [he, and_comm] using And.intro hbreak hesc

/-! ## Reading by the first rune -/

/-- The rune stands alone: with the rune after it, it makes no operator and no comment. -/
def Lone (r : Rune) (rest : Text) : Prop :=
  ∀ next ∈ rest.head?, (∀ op, ((r, next), op) ∉ doubles) ∧ ¬ (r = '/' ∧ next = '/')

/-- What the first runes of a text can start. -/
inductive Opening (r : Rune) : Text → Prop where
  | hash {rest : Text} (hr : r = '#') : Opening r rest
  | string {rest : Text} {quote : Quote} (hr : r = quote.rune) : Opening r rest
  | digit {rest : Text} (hr : r.isAsciiDigit = true) : Opening r rest
  | slash {rest : Text} (hr : r = '/') : Opening r (('/' : Rune) :: rest)
  | double {next : Rune} {rest : Text} {kind : Kind} (h : ((r, next), kind) ∈ doubles) : Opening r (next :: rest)
  | single {rest : Text} {kind : Kind} (h : (r, kind) ∈ singles) (hlone : Lone r rest) : Opening r rest
  | word {rest : Text} (hr : startsWord r = true) : Opening r rest
  | nothing {rest : Text} (hread : read r rest = .error (.unrecognized r)) (hquote : ∀ quote : Quote, r ≠ quote.rune) :
      Opening r rest

theorem double?_eq_none {r : Rune} {rest : Text} (h : ∀ next ∈ rest.head?, ∀ op, ((r, next), op) ∉ doubles) :
    double? r rest = none := by
  cases rest with
  | nil => rfl
  | cons next after =>
    rw [double?, Option.map_eq_none_iff]
    cases hl : doubles.lookup (r, next) with
    | none => rfl
    | some op => exact absurd (lookup_doubles.1 hl) (h next rfl op)

theorem opening (r : Rune) (rest : Text) : Opening r rest := by
  by_cases hhash : r = '#'
  · exact .hash hhash
  by_cases hquote : ∃ quote : Quote, r = quote.rune
  · obtain ⟨quote, hr⟩ := hquote
    exact .string hr
  simp only [not_exists] at hquote
  by_cases hdigit : r.isAsciiDigit = true
  · exact .digit hdigit
  by_cases hslash : r = '/' ∧ rest.head? = some ('/' : Rune)
  · obtain ⟨rfl, hrest⟩ := hslash
    cases rest with
    | nil => cases hrest
    | cons next after => cases hrest; exact .slash rfl
  by_cases hdouble : ∃ next ∈ rest.head?, ∃ kind, ((r, next), kind) ∈ doubles
  · obtain ⟨next, hnext, kind, h⟩ := hdouble
    cases rest with
    | nil => cases hnext
    | cons next' after => cases hnext; exact .double h
  have hlone : Lone r rest := by
    intro next hnext
    refine ⟨fun op hop => hdouble ⟨next, hnext, op, hop⟩, ?_⟩
    rintro ⟨hr, rfl⟩
    exact hslash ⟨hr, hnext⟩
  cases hsingle : singles.lookup r with
  | some kind => exact .single (lookup_singles.1 hsingle) hlone
  | none =>
    by_cases hword : startsWord r = true
    · exact .word hword
    refine .nothing ?_ hquote
    have hnone : double? r rest = none := double?_eq_none fun next hnext => (hlone next hnext).1
    have hslash' : ¬ (r = '/' && rest.head? = some ('/' : Rune)) = true := by simpa using hslash
    rw [read, if_neg hhash, ofRune?_eq_none hquote]
    simp only [if_neg hdigit, if_neg hslash', operator?, hnone, hsingle, Option.map_none, if_neg hword]

theorem read_hash (rest : Text) : read '#' rest = .ok (run .hashComment (fun c => !isBreak c) rest) := rfl

theorem read_string (quote : Quote) (rest : Text) : read quote.rune rest = quoted quote rest := by
  cases quote <;> rfl

theorem read_digit {r : Rune} (h : r.isAsciiDigit = true) (rest : Text) : read r rest = number false rest := by
  have hquote : ∀ quote : Quote, r ≠ quote.rune := fun quote => ne_of_class h (by cases quote <;> decide)
  rw [read, if_neg (ne_of_class h (by decide)), ofRune?_eq_none hquote]
  simp only [h, if_true]

theorem read_slash (rest : Text) :
    read '/' (('/' : Rune) :: rest) = .ok (run .slashComment (fun c => !isBreak c) (('/' : Rune) :: rest)) := rfl

theorem read_double {r next : Rune} {kind : Kind} (h : ((r, next), kind) ∈ doubles) (rest : Text) :
    read r (next :: rest) = .ok ⟨kind, [next], rest⟩ := by
  simp only [doubles, List.mem_cons, Prod.mk.injEq, List.not_mem_nil, or_false] at h
  rcases h with h | h | h | h | h | h | h | h | h | h | h | h | h
  all_goals
    obtain ⟨⟨rfl, rfl⟩, rfl⟩ := h
    rfl

theorem read_single {r : Rune} {kind : Kind} {rest : Text} (h : (r, kind) ∈ singles) (hlone : Lone r rest) :
    read r rest = .ok ⟨kind, [], rest⟩ := by
  have hclass : ∀ s ∈ singles, s.1 ≠ '#' ∧ Quote.ofRune? s.1 = none ∧ s.1.isAsciiDigit = false := by decide
  obtain ⟨hhash, hquote, hdigit⟩ := hclass _ h
  have hslash : ¬ (r = '/' && rest.head? = some ('/' : Rune)) = true := by
    simp only [Bool.and_eq_true, decide_eq_true_eq]
    exact fun hr => (hlone '/' hr.2).2 ⟨hr.1, rfl⟩
  have hnone : double? r rest = none := double?_eq_none fun next hnext => (hlone next hnext).1
  rw [read, if_neg hhash, hquote]
  simp only [hdigit, if_neg hslash, operator?, hnone, lookup_singles.2 h, Option.map_some]
  rfl

theorem read_word {r : Rune} (h : startsWord r = true) (rest : Text) :
    read r rest = .ok (run .ident continuesWord rest) := by
  have hquote : ∀ quote : Quote, r ≠ quote.rune := fun quote => ne_of_class h (startsWord_quote quote)
  have hdigit : ¬ r.isAsciiDigit = true := fun hd => by rw [startsWord_of_digit hd] at h; cases h
  have hslash : ¬ (r = '/' && rest.head? = some ('/' : Rune)) = true := by
    have : r ≠ '/' := ne_of_class h (by decide)
    simp [this]
  have hoperator : operator? r rest = none := by
    have hdoubles : ∀ d ∈ doubles, startsWord d.1.1 = false := by decide
    have hsingles : ∀ s ∈ singles, startsWord s.1 = false := by decide
    have hsingle : singles.lookup r = none := by
      cases hl : singles.lookup r with
      | none => rfl
      | some op => exact absurd rfl (ne_of_class h (hsingles _ (lookup_singles.1 hl)))
    have hdouble : double? r rest = none :=
      double?_eq_none fun _ _ _ hop => absurd rfl (ne_of_class h (hdoubles _ hop))
    simp [operator?, hdouble, hsingle]
  rw [read, if_neg (ne_of_class h (by decide)), ofRune?_eq_none hquote]
  simp only [if_neg hdigit, if_neg hslash, hoperator, h, if_true]

/-! ## Reading what is spelled -/

theorem run_eq {kind : Kind} {p : Rune → Bool} {more rest : Text} (hmore : ∀ c ∈ more, p c = true)
    (hrest : ∀ next ∈ rest.head?, p next = false) : run kind p (more ++ rest) = ⟨kind, more, rest⟩ := by
  have htake : rest.takeWhile p = [] ∧ rest.dropWhile p = rest := by
    cases rest with
    | nil => exact ⟨rfl, rfl⟩
    | cons next after => simp [hrest next rfl]
  rw [run, List.takeWhile_append_of_pos hmore, List.dropWhile_append_of_pos hmore, htake.1, htake.2, List.append_nil]

/-- A text that spells a token is read as that token, where the token can end. -/
theorem read_of_spells {kind : Kind} {r : Rune} {more rest : Text} (h : Spells kind (r :: more))
    (hends : Ends kind (r :: more) rest) : read r (more ++ rest) = .ok ⟨kind, more, rest⟩ := by
  cases h with
  | word hr hmore =>
    rw [read_word hr, run_eq hmore fun next hnext => (hends next hnext).1 rfl]
  | number hr hmore hpoint =>
    rw [read_digit hr, number_body hmore (by simpa using hpoint),
      number_end fun next hnext => (hends next hnext).2.1 rfl]
    simp [Except.map, extend]
  | @string quote body hbody =>
    rw [read_string, List.append_assoc]
    exact quoted_closed hbody rest
  | hash hmore =>
    rw [read_hash, run_eq (by simpa using hmore) fun next hnext => by simp [(hends next hnext).2.2.1 rfl]]
  | @slash more hmore =>
    rw [List.cons_append, read_slash, ← List.cons_append,
      run_eq (by simpa using ⟨by decide, hmore⟩) fun next hnext => by simp [(hends next hnext).2.2.1 rfl]]
  | single h => exact read_single h fun next hnext => (hends next hnext).2.2.2 r rfl
  | double h => exact read_double h rest

/-- At the rune of an operator there is always an operator or a comment. -/
theorem read_operator {r : Rune} {kind : Kind} (h : (r, kind) ∈ singles) (rest : Text) : ∃ l, read r rest = .ok l := by
  by_cases hlone : Lone r rest
  · exact ⟨_, read_single h hlone⟩
  · unfold Lone at hlone
    push Not at hlone
    obtain ⟨next, hnext, hlone⟩ := hlone
    obtain ⟨after, rfl⟩ : ∃ after, rest = next :: after := by
      cases rest with
      | nil => cases hnext
      | cons next' after => cases hnext; exact ⟨after, rfl⟩
    by_cases hdouble : ∃ op, ((r, next), op) ∈ doubles
    · obtain ⟨op, hop⟩ := hdouble
      exact ⟨_, read_double hop after⟩
    · obtain ⟨rfl, rfl⟩ := hlone fun op hop => hdouble ⟨op, hop⟩
      exact ⟨_, read_slash after⟩

/-- What spells a token at a place is not longer than what is read there; where nothing is read, it is
a number that runs into a second point or a letter. -/
theorem read_longest {kind : Kind} {r : Rune} {more : Text} (h : Spells kind (r :: more)) (rest : Text) :
    (∃ l, read r (more ++ rest) = .ok l ∧ more.length ≤ l.more.length) ∨
      ∃ cause, read r (more ++ rest) = .error cause ∧ cause ≠ .unrecognized r := by
  have hrun : ∀ {kind : Kind} {p : Rune → Bool} {more : Text}, (∀ c ∈ more, p c = true) →
      more.length ≤ (run kind p (more ++ rest)).more.length := by
    intro kind p more hmore
    rw [run, List.takeWhile_append_of_pos hmore]
    simp
  cases h with
  | word hr hmore => exact .inl ⟨_, read_word hr _, hrun hmore⟩
  | number hr hmore hpoint =>
    rw [read_digit hr, number_body hmore (by simpa using hpoint)]
    obtain ⟨more', rest', -, -, -, hnumber⟩ := number_cases (false || more.contains ('.' : Rune)) rest
    rcases hnumber with ⟨hok, -⟩ | ⟨herror, -⟩ | ⟨c, after, herror, -⟩
    · exact .inl ⟨_, by rw [hok]; rfl, by simp [extend]⟩
    · exact .inr ⟨_, by rw [herror]; rfl, by simp⟩
    · exact .inr ⟨_, by rw [herror]; rfl, by simp⟩
  | @string quote body hbody =>
    rw [read_string, List.append_assoc]
    exact .inl ⟨_, quoted_closed hbody rest, by simp⟩
  | hash hmore => exact .inl ⟨_, read_hash _, hrun (by simpa using hmore)⟩
  | @slash more hmore =>
    have hline : ∀ c ∈ ('/' : Rune) :: more, (!isBreak c) = true := by simpa using ⟨by decide, hmore⟩
    exact .inl ⟨_, read_slash _, hrun hline⟩
  | single h =>
    obtain ⟨l, hl⟩ := read_operator h rest
    exact .inl ⟨l, hl, by simp⟩
  | double h => exact .inl ⟨_, read_double h rest, by simp⟩

theorem Spells.ne_nil {kind : Kind} {text : Text} (h : Spells kind text) : text ≠ [] := by cases h <;> simp

/-- No token starts with a blank. -/
theorem Spells.isSpace_head {kind : Kind} {r : Rune} {more : Text} (h : Spells kind (r :: more)) :
    isSpace r = false := by
  have hsingles : ∀ s ∈ singles, isSpace s.1 = false := by decide
  have hdoubles : ∀ d ∈ doubles, isSpace d.1.1 = false := by decide
  have hclass : ∀ {p : Rune → Bool}, p r = true → p ' ' = false → p '\t' = false → p '\n' = false →
      p '\r' = false → p '\x0b' = false → p '\x0c' = false → isSpace r = false := by
    intro p hr h₁ h₂ h₃ h₄ h₅ h₆
    simp [isSpace, ne_of_class hr h₁, ne_of_class hr h₂, ne_of_class hr h₃, ne_of_class hr h₄, ne_of_class hr h₅,
      ne_of_class hr h₆]
  cases h with
  | word hr => exact hclass hr (by decide) (by decide) (by decide) (by decide) (by decide) (by decide)
  | number hr => exact hclass hr (by decide) (by decide) (by decide) (by decide) (by decide) (by decide)
  | @string quote => exact isSpace_quote quote
  | hash => decide
  | slash => decide
  | single h => exact hsingles _ h
  | double h => exact hdoubles _ h

theorem Stuck.ne_nil {cause : LexicalCause} {text : Text} (h : Stuck cause text) : text ≠ [] := by cases h <;> simp

theorem isBreak_false_of_mem {c : Rune} {t : Text} (h : c ∈ t.takeWhile fun c => !isBreak c) : isBreak c = false := by
  simpa using List.mem_takeWhile_imp h

/-- A rune of a class that no operator starts with stands alone. -/
theorem lone_of_class {p : Rune → Bool} {r : Rune} {rest : Text} (hr : p r = true)
    (hdoubles : ∀ d ∈ doubles, p d.1.1 = false) (hslash : p '/' = false) : Lone r rest := by
  refine fun next _ => ⟨fun op hop => absurd rfl (ne_of_class hr (hdoubles _ hop)), ?_⟩
  rintro ⟨rfl, -⟩
  exact absurd rfl (ne_of_class hr hslash)

theorem head?_dropWhile {p : Rune → Bool} {t : Text} {next : Rune} (h : next ∈ (t.dropWhile p).head?) :
    p next = false := by
  have := List.head?_dropWhile_not p t
  rw [h] at this
  simpa using this

/-- What is read spells a token and ends where it must; where nothing is read, the place is stuck. -/
theorem read_cases {r : Rune} (hspace : isSpace r = false) (rest : Text) :
    (∃ l, read r rest = .ok l ∧ Spells l.kind (r :: l.more) ∧ Ends l.kind (r :: l.more) l.rest) ∨
      ∃ cause, read r rest = .error cause ∧ Stuck cause (r :: rest) := by
  cases opening r rest with
  | hash hr =>
    subst hr
    refine .inl ⟨_, read_hash rest, .hash fun c hc => isBreak_false_of_mem hc, fun next hnext => ?_⟩
    have hlone : Lone '#' (rest.dropWhile fun c => !isBreak c) :=
      lone_of_class (p := fun c => c = '#') (by simp) (by decide) (by decide)
    refine ⟨by simp [run], by simp [run], fun _ => by simpa using head?_dropWhile hnext, fun c hc => ?_⟩
    obtain rfl := (List.cons.inj hc).1
    exact hlone next hnext
  | @string rest quote hr =>
    subst hr
    obtain ⟨body, rest, rfl, hbody, hrest | ⟨after, rfl⟩⟩ := inside_split quote rest
    · exact .inr ⟨_, by rw [read_string, quoted_cut hbody hrest], .unclosed hbody hrest⟩
    · refine .inl ⟨_, by rw [read_string, quoted_closed hbody], .string hbody, fun next hnext => ?_⟩
      cases quote <;> simp [Quote.kind, Kind.isComment]
  | digit hr =>
    rw [read_digit hr]
    obtain ⟨more, rest, rfl, hmore, hcount, hnumber⟩ := number_cases false rest
    have hspells : Spells .number (r :: more) := .number hr hmore (by simpa using hcount)
    rcases hnumber with ⟨hok, hnext⟩ | ⟨herror, hpoint, after, rfl⟩ | ⟨c, after, herror, hc, rfl⟩
    · refine .inl ⟨_, hok, hspells, fun next hn => ⟨by simp, fun _ => hnext next hn, by simp [Kind.isComment], ?_⟩⟩
      rintro _ ⟨⟩
      exact lone_of_class hr (by decide) (by decide) next hn
    · exact .inr ⟨_, herror, .secondPoint hspells (by simp_all)⟩
    · exact .inr ⟨_, herror, .letter hspells hc⟩
  | @slash rest hr =>
    subst hr
    refine .inl ⟨_, read_slash rest, ?_, fun next hnext => ?_⟩
    · have htake : (run .slashComment (fun c => !isBreak c) (('/' : Rune) :: rest)).more =
          ('/' : Rune) :: rest.takeWhile fun c => !isBreak c := rfl
      rw [htake]
      exact .slash fun c hc => isBreak_false_of_mem hc
    · refine ⟨by simp [run], by simp [run], fun _ => by simpa using head?_dropWhile hnext, ?_⟩
      rintro _ ⟨⟩
  | double h =>
    refine .inl ⟨_, read_double h _, .double h, fun next hnext => ?_⟩
    have hkind : ∀ d ∈ doubles, d.2 ≠ .ident ∧ d.2 ≠ .number ∧ d.2.isComment = false := by decide
    obtain ⟨hident, hnumber, hcomment⟩ := hkind _ h
    simp_all
  | single h hlone =>
    refine .inl ⟨_, read_single h hlone, .single h, fun next hnext => ?_⟩
    have hkind : ∀ d ∈ singles, d.2 ≠ .ident ∧ d.2 ≠ .number ∧ d.2.isComment = false := by decide
    obtain ⟨hident, hnumber, hcomment⟩ := hkind _ h
    refine ⟨by simp_all, by simp_all, by simp_all, ?_⟩
    rintro _ ⟨⟩
    exact hlone next hnext
  | word hr =>
    refine .inl ⟨_, read_word hr rest, .word hr fun c hc => List.mem_takeWhile_imp hc, fun next hnext => ?_⟩
    refine ⟨fun _ => head?_dropWhile hnext, by simp [run], by simp [run, Kind.isComment], fun c hc => ?_⟩
    obtain rfl := (List.cons.inj hc).1
    exact lone_of_class hr (by decide) (by decide) next hnext
  | nothing hread hquote =>
    refine .inr ⟨_, hread, .unrecognized hspace hquote fun kind text h hprefix => ?_⟩
    -- whatever is spelled here would be read, or would be a number
    obtain ⟨after, hafter⟩ := hprefix
    cases text with
    | nil => exact h.ne_nil rfl
    | cons c more =>
      rw [List.cons_append] at hafter
      obtain ⟨rfl, rfl⟩ := List.cons.inj hafter
      rcases read_longest h after with ⟨l, hl, -⟩ | ⟨cause, herror, hne⟩
      · rw [hread] at hl; cases hl
      · rw [hread] at herror; cases herror; exact hne rfl

theorem Spells.of_number {text : Text} (h : Spells .number text) : ∃ r more, text = r :: more ∧
    r.isAsciiDigit = true ∧ (∀ c ∈ more, inNumber c = true) ∧ more.count ('.' : Rune) ≤ 1 := by
  have hsingles : ∀ d ∈ singles, d.2 ≠ .number := by decide
  have hdoubles : ∀ d ∈ doubles, d.2 ≠ .number := by decide
  generalize hkind : Kind.number = kind at h
  cases h with
  | number hr hmore hpoint => exact ⟨_, _, rfl, hr, hmore, hpoint⟩
  | @string quote => cases quote <;> cases hkind
  | single h => exact absurd hkind.symm (hsingles _ h)
  | double h => exact absurd hkind.symm (hdoubles _ h)
  | _ => cases hkind

/-- A number is read up to what is behind it. -/
theorem read_number {r : Rune} {rest number after : Text} (h : Spells .number number) (hrest : r :: rest = number ++ after) :
    ∃ more, number = r :: more ∧ r ≠ '.' ∧
      read r rest = (Lexeme.number (more.contains ('.' : Rune)) after).map (extend more) := by
  obtain ⟨c, more, rfl, hc, hmore, hpoint⟩ := h.of_number
  rw [List.cons_append] at hrest
  obtain ⟨rfl, rfl⟩ := List.cons.inj hrest
  refine ⟨more, rfl, ne_of_class hc (by decide), ?_⟩
  rw [read_digit hc, number_body hmore (by simpa using hpoint), Bool.false_or]

/-- Nothing is read where a place is stuck. -/
theorem read_of_stuck {cause : LexicalCause} {r : Rune} {rest : Text} (h : Stuck cause (r :: rest)) :
    read r rest = .error cause := by
  generalize htext : r :: rest = text at h
  cases h with
  | unrecognized hspace hquote h =>
    obtain ⟨rfl, rfl⟩ := List.cons.inj htext
    rcases read_cases hspace rest with ⟨l, hl, hspells, -⟩ | ⟨cause, herror, hstuck⟩
    · exact absurd ⟨l.rest, by rw [List.cons_append, read_append hl]⟩ (h _ _ hspells)
    · -- the other ways to be stuck start with a number or a quote
      rw [herror]
      generalize htext : r :: rest = text at hstuck h
      cases hstuck with
      | unrecognized => cases htext; rfl
      | secondPoint hspells => exact absurd ⟨_, rfl⟩ (h _ _ hspells)
      | letter hspells => exact absurd ⟨_, rfl⟩ (h _ _ hspells)
      | unclosed => exact absurd (List.cons.inj htext).1 (hquote _)
  | secondPoint hspells hpoint =>
    obtain ⟨more, rfl, hne, hread⟩ := read_number hspells htext
    have hmore : more.contains ('.' : Rune) = true := by simpa [Ne.symm hne] using hpoint
    rw [hread, hmore]
    rfl
  | letter hspells hr =>
    obtain ⟨more, rfl, -, hread⟩ := read_number hspells htext
    rw [hread, number_letter hr]
    rfl
  | unclosed hbody hrest =>
    obtain ⟨rfl, rfl⟩ := List.cons.inj htext
    rw [read_string, quoted_cut hbody hrest]

theorem stuck_of_read {cause : LexicalCause} {r : Rune} {rest : Text} (hspace : isSpace r = false)
    (h : read r rest = .error cause) : Stuck cause (r :: rest) := by
  rcases read_cases hspace rest with ⟨l, hl, -⟩ | ⟨cause', herror, hstuck⟩
  · rw [h] at hl; cases hl
  · rw [h] at herror; cases herror; exact hstuck

/-- What is read at a place is a token taken there. -/
theorem taken_of_read {r : Rune} {rest : Text} {l : Lexeme} (hspace : isSpace r = false) (h : read r rest = .ok l) :
    Taken l.kind (r :: l.more) l.rest := by
  have htext : r :: l.more ++ l.rest = r :: rest := by rw [List.cons_append, read_append h]
  rcases read_cases hspace rest with ⟨l', hl', hspells, hends⟩ | ⟨cause, herror, -⟩
  · obtain rfl : l = l' := Except.ok.inj (h.symm.trans hl')
    refine ⟨hspells, fun kind text hs hprefix => ?_, hends, fun cause hstuck => ?_⟩
    · rw [htext] at hprefix
      obtain ⟨after, hafter⟩ := hprefix
      cases text with
      | nil => simp
      | cons c more =>
        rw [List.cons_append] at hafter
        obtain ⟨rfl, rfl⟩ := List.cons.inj hafter
        rcases read_longest hs after with ⟨l', hl', hle⟩ | ⟨cause, herror, -⟩
        · obtain rfl : l = l' := Except.ok.inj (h.symm.trans hl')
          simpa using hle
        · rw [h] at herror; cases herror
    · rw [htext] at hstuck
      rw [read_of_stuck hstuck] at h
      cases h
  · rw [h] at herror
    cases herror

end Kettle.Lexeme
