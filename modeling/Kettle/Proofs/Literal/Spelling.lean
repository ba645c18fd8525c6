/-
How strings are spelled. A rune between double or single quotes is spelled as itself, by an escape of one
rune or by its code in hexadecimal digits, and a text by spellings of its runes one after the other. A
source that is such a text between quotes is one token, and its program is that string; a token whose inside
is no such text has no program. Scanning takes a backslash with one rune after it and reading takes it with up
to nine, but the digits of a code are nothing that scanning stops at, so the two agree on where a string ends.
-/
import Kettle.Proofs.Program.Rejection
import Kettle.Proofs.Tree.Append
import Mathlib.Tactic.IntervalCases

namespace Kettle

namespace Literal

/-! ## Spellings -/

/-- What the rune after a backslash denotes. -/
inductive Denotes : Rune → Rune → Prop where
  | newline : Denotes 'n' '\n'
  | tab : Denotes 't' '\t'
  | carriageReturn : Denotes 'r' '\r'
  | backslash : Denotes '\\' '\\'
  | doubleQuote : Denotes '"' '"'
  | singleQuote : Denotes '\x27' '\x27'
  | null : Denotes '0' 0
  | bell : Denotes 'a' 7
  | backspace : Denotes 'b' 8
  | formFeed : Denotes 'f' 12
  | verticalTab : Denotes 'v' 11

/-- A hexadecimal digit, of either case, and its value. -/
def HexDigit (r : Rune) (n : Nat) : Prop :=
  ("0123456789abcdef" : Text)[n]? = some r ∨ ("0123456789ABCDEF" : Text)[n]? = some r

/-- Hexadecimal digits and the number that they spell. -/
inductive HexNumber : Text → Nat → Prop where
  | nil : HexNumber [] 0
  | snoc {t : Text} {n d : Nat} {r : Rune} (ht : HexNumber t n) (hr : HexDigit r d) :
      HexNumber (t ++ [r]) (16 * n + d)

/-- The runes that announce a code, and how many digits it has. -/
def codes : List (Rune × Nat) := [('x', 2), ('u', 4), ('U', 8)]

/-- The spellings of a rune between quotes. -/
inductive Spelling (quote : Rune) : Rune → Text → Prop where
  | plain {c : Rune} (hslash : c ≠ '\\') (hquote : c ≠ quote) (hfeed : c ≠ '\n') (hreturn : c ≠ '\r') :
      Spelling quote c [c]
  | simple {c e : Rune} (h : Denotes e c) : Spelling quote c [('\\' : Rune), e]
  | code {c e : Rune} {digits : Text} (he : (e, digits.length) ∈ codes) (hvalue : HexNumber digits c.val) :
      Spelling quote c (('\\' : Rune) :: e :: digits)

/-- A text and the spellings of its runes one after the other. -/
inductive Spellings (quote : Rune) : Text → Text → Prop where
  | nil : Spellings quote [] []
  | cons {c : Rune} {t s body : Text} (hc : Spelling quote c t) (h : Spellings quote s body) :
      Spellings quote (c :: s) (t ++ body)

variable {r c e : Rune} {n d : Nat} {t s body rest digits : Text} {quote : Quote}

/-! ## Reading escapes -/

theorem lookup_simpleEscapes : simpleEscapes.lookup e = some c ↔ Denotes e c := by
  constructor
  · intro h
    obtain ⟨l, l', hl, -⟩ := List.lookup_eq_some_iff.1 h
    have hmem : (e, c) ∈ simpleEscapes := by simp [hl]
    simp only [simpleEscapes, List.mem_cons, Prod.mk.injEq, List.not_mem_nil, or_false] at hmem
    rcases hmem with ⟨rfl, rfl⟩ | ⟨rfl, rfl⟩ | ⟨rfl, rfl⟩ | ⟨rfl, rfl⟩ | ⟨rfl, rfl⟩ | ⟨rfl, rfl⟩ | ⟨rfl, rfl⟩ |
      ⟨rfl, rfl⟩ | ⟨rfl, rfl⟩ | ⟨rfl, rfl⟩ | ⟨rfl, rfl⟩ <;> constructor
  · intro h
    cases h <;> rfl

theorem hexWidth?_eq_some_iff : hexWidth? e = some n ↔ (e, n) ∈ codes := by
  unfold hexWidth? codes
  constructor
  · intro h
    split_ifs at h with hx hu hU <;> cases h <;> simp [*]
  · intro h
    simp only [List.mem_cons, Prod.mk.injEq, List.not_mem_nil, or_false] at h
    rcases h with ⟨rfl, rfl⟩ | ⟨rfl, rfl⟩ | ⟨rfl, rfl⟩ <;> rfl

theorem hex?_eq_some_iff : r.hex? = some d ↔ HexDigit r d := by
  constructor
  · intro h
    have hval : 0x30 + d = r.val ∧ d < 10 ∨ 0x57 + d = r.val ∧ 10 ≤ d ∧ d < 16 ∨ 0x37 + d = r.val ∧ 10 ≤ d ∧ d < 16 := by
      unfold Rune.hex? at h
      split_ifs at h with hdigit hlower hupper <;> cases h <;>
        simp only [Rune.isAsciiDigit, Bool.and_eq_true, decide_eq_true_eq] at * <;> omega
    obtain ⟨v, hv⟩ := r
    rcases hval with ⟨rfl, hd⟩ | ⟨rfl, hlow, hd⟩ | ⟨rfl, hlow, hd⟩
    · interval_cases d <;> exact .inl rfl
    · interval_cases d <;> exact .inl rfl
    · interval_cases d <;> exact .inr rfl
  · have hlower : ∀ d : Fin 16, ("0123456789abcdef" : Text)[d.val]?.bind Rune.hex? = some d.val := by decide
    have hupper : ∀ d : Fin 16, ("0123456789ABCDEF" : Text)[d.val]?.bind Rune.hex? = some d.val := by decide
    rintro (h | h)
    · simpa [h] using hlower ⟨d, (List.getElem?_eq_some_iff.1 h).1⟩
    · simpa [h] using hupper ⟨d, (List.getElem?_eq_some_iff.1 h).1⟩

/-- A number is read digit by digit, the last one for itself. -/
theorem hexValue?_snoc (t : Text) (r : Rune) :
    hexValue? (t ++ [r]) = (hexValue? t).bind fun n => r.hex?.map (n * 16 + ·) := by
  simp [hexValue?, List.foldlM_append]

theorem hexValue?_eq_some_iff : hexValue? digits = some n ↔ HexNumber digits n := by
  induction digits using List.reverseRecOn generalizing n with
  | nil =>
    constructor
    · rintro ⟨⟩
      exact .nil
    · intro h
      generalize ht : ([] : Text) = t at h
      cases h with
      | nil => rfl
      | snoc => simp at ht
  | append_singleton t r ih =>
    rw [hexValue?_snoc, Option.bind_eq_some_iff]
    constructor
    · rintro ⟨m, hm, h⟩
      obtain ⟨d, hd, rfl⟩ := Option.map_eq_some_iff.1 h
      rw [Nat.mul_comm]
      exact .snoc (ih.1 hm) (hex?_eq_some_iff.1 hd)
    · intro h
      generalize ht : t ++ [r] = u at h
      cases h with
      | nil => simp at ht
      | @snoc t' m d r' hm hd =>
        obtain ⟨rfl, hr⟩ := List.append_inj' ht rfl
        obtain rfl := List.singleton_inj.1 hr
        exact ⟨m, ih.2 hm, by rw [hex?_eq_some_iff.2 hd, Option.map_some, Nat.mul_comm]⟩

theorem HexNumber.all_digits (h : HexNumber digits n) : ∀ r ∈ digits, ∃ d, HexDigit r d := by
  induction h with
  | nil => simp
  | @snoc t n d r _ hr ih =>
    intro c hc
    rcases List.mem_append.1 hc with hc | hc
    · exact ih c hc
    · exact ⟨d, List.mem_singleton.1 hc ▸ hr⟩

theorem hexWidth?_of_denotes (h : Denotes e c) : hexWidth? e = none := by
  cases h <;> rfl

/-- A code with all its digits is read as the rune with that number, if there is one. -/
theorem readEscape_code (he : (e, digits.length) ∈ codes) (hvalue : HexNumber digits n) (rest : Text) :
    readEscape e (digits ++ rest) =
      ⟨if h : n < 0x110000 then some ⟨n, h⟩ else none, digits.length, e :: digits⟩ := by
  simp [readEscape, hexWidth?_eq_some_iff.2 he, hexValue?_eq_some_iff.2 hvalue]

/-- An escape that stands for a rune is an escape of one rune, or a code with all its digits. -/
theorem readEscape_cases (h : (readEscape e rest).rune? = some c) :
    Denotes e c ∧ (readEscape e rest).width = 0 ∨
      ∃ digits after, rest = digits ++ after ∧ (e, digits.length) ∈ codes ∧ HexNumber digits c.val ∧
        (readEscape e rest).width = digits.length := by
  have hsimple : simpleEscapes.lookup e = some c → Denotes e c := lookup_simpleEscapes.1
  unfold readEscape at h ⊢
  cases hwidth : hexWidth? e with
  | none =>
    rw [hwidth] at h
    exact .inl ⟨hsimple h, rfl⟩
  | some width =>
    simp only [hwidth] at h ⊢
    by_cases hshort : (rest.take width).length < width
    · rw [if_pos hshort] at h ⊢
      exact .inl ⟨hsimple h, rfl⟩
    · have hlength : (rest.take width).length = width := by
        have := List.length_take_le width rest
        omega
      rw [if_neg hshort] at h ⊢
      cases hvalue : hexValue? (rest.take width) with
      | none =>
        rw [hvalue] at h
        exact .inl ⟨hsimple h, rfl⟩
      | some n =>
        simp only [hvalue] at h ⊢
        have hn := hexValue?_eq_some_iff.1 hvalue
        split_ifs at h with hrange
        obtain rfl := Option.some.inj h
        exact .inr ⟨rest.take width, rest.drop width, (List.take_append_drop width rest).symm,
          hlength.symm ▸ hexWidth?_eq_some_iff.1 hwidth, hn, hlength.symm⟩

/-! ## Reading spellings -/

theorem decode_plain (hr : r ≠ '\\') (rest : Text) : decode (r :: rest) = (decode rest).map (r :: ·) := by
  rw [decode.eq_def]
  exact if_pos hr

theorem decode_escape {escape : Escape} (h : readEscape e rest = escape) (hc : escape.rune? = some c) :
    decode (('\\' : Rune) :: e :: rest) = (decode (rest.drop escape.width)).map (c :: ·) := by
  rw [decode.eq_def]
  simp only [ne_eq, not_true_eq_false, if_false, h, hc]

/-- A spelling of a rune is read as that rune. -/
theorem Spelling.decode_append {quote : Rune} (h : Spelling quote c t) (rest : Text) :
    decode (t ++ rest) = (decode rest).map (c :: ·) := by
  cases h with
  | plain hslash => exact decode_plain hslash rest
  | @simple e h =>
    have hread : readEscape e rest = ⟨some c, 0, [e]⟩ := by
      rw [readEscape, hexWidth?_of_denotes h, lookup_simpleEscapes.2 h]
    exact decode_escape hread rfl
  | @code e digits he hvalue =>
    have hread := readEscape_code he hvalue rest
    rw [dif_pos c.isLt] at hread
    rw [List.cons_append, List.cons_append, decode_escape hread rfl, List.drop_left]

theorem Spellings.decode_eq {quote : Rune} (h : Spellings quote s body) : decode body = .ok s := by
  induction h with
  | nil => rw [decode]
  | cons hc _ ih =>
    rw [hc.decode_append, ih]
    rfl

/-! ## Scanning spellings -/

open Lexeme (Inside)

/-- The runes that mean more than themselves in some string. -/
def marks : Text := [Quote.double.rune, Quote.single.rune, Quote.back.rune, ('\\' : Rune), ('\n' : Rune), ('\r' : Rune)]

theorem rune_mem_marks (quote : Quote) : quote.rune ∈ marks := by cases quote <;> decide

theorem HexDigit.not_mem_marks (h : HexDigit r d) : r ∉ marks := by
  have hall : ("0123456789abcdef" ++ "0123456789ABCDEF" : Text).all (· ∉ marks) = true := by decide
  have hmem : r ∈ ("0123456789abcdef" ++ "0123456789ABCDEF" : Text) :=
    List.mem_append.2 (h.imp List.mem_of_getElem? List.mem_of_getElem?)
  simpa using List.all_eq_true.1 hall r hmem

theorem inside_plain_iff (h : r ∉ marks) : Inside quote (r :: t) ↔ Inside quote t := by
  have hquote : r ≠ quote.rune := fun he => h (he ▸ rune_mem_marks quote)
  have hr : r ≠ '\\' ∧ r ≠ '\n' ∧ r ≠ '\r' := by
    refine ⟨?_, ?_, ?_⟩ <;> rintro rfl <;> exact h (by decide)
  constructor
  · intro h
    generalize hu : r :: t = u at h
    cases h with
    | nil => cases hu
    | plain _ _ ht =>
      cases hu
      exact ht
    | escape => exact absurd (List.cons.inj hu).1 hr.1
  · exact .plain hquote fun _ => hr

theorem inside_escape_iff (he : quote.isEscaped = true) : Inside quote (('\\' : Rune) :: r :: t) ↔ Inside quote t := by
  constructor
  · intro h
    cases h with
    | plain _ hescape _ => exact absurd rfl (hescape he).1
    | escape _ ht => exact ht
  · exact .escape he

/-- Digits make no difference to the inside of a string. -/
theorem inside_digits_iff (h : ∀ r ∈ digits, ∃ d, HexDigit r d) : Inside quote (digits ++ t) ↔ Inside quote t := by
  induction digits with
  | nil => rfl
  | cons r digits ih =>
    obtain ⟨d, hr⟩ := h r (by simp)
    rw [List.cons_append, inside_plain_iff hr.not_mem_marks, ih fun c hc => h c (by simp [hc])]

/-- The spellings of a text are the inside of a string. -/
theorem Spellings.inside (he : quote.isEscaped = true) (h : Spellings quote.rune s body) : Inside quote body := by
  induction h with
  | nil => exact .nil
  | cons hc _ ih =>
    cases hc with
    | plain hslash hquote hfeed hreturn => exact .plain hquote (fun _ => ⟨hslash, hfeed, hreturn⟩) ih
    | simple => exact .escape he ih
    | code _ hvalue => exact .escape he ((inside_digits_iff hvalue.all_digits).2 ih)

theorem map_cons_eq_ok {x : Except Text Text} (h : x.map (c :: ·) = .ok s) : ∃ s', x = .ok s' ∧ c :: s' = s := by
  cases x with
  | error e => cases h
  | ok s' => exact ⟨s', rfl, Except.ok.inj h⟩

/-- The inside of a string that reads as a text is made of spellings of its runes: the induction is on the
reading, and a code leaves the inside of a string behind its digits. -/
theorem spellings_of_decode (he : quote.isEscaped = true) (hi : Inside quote body) (h : decode body = .ok s) :
    Spellings quote.rune s body := by
  induction body using decode_induct generalizing s with
  | nil =>
    cases h
    exact .nil
  | plain r rest hr ih =>
    obtain ⟨s', hs', rfl⟩ := map_cons_eq_ok h
    generalize hu : r :: rest = u at hi
    cases hi with
    | nil => cases hu
    | plain hquote hescape ht =>
      cases hu
      obtain ⟨hslash, hfeed, hreturn⟩ := hescape he
      exact .cons (.plain hslash hquote hfeed hreturn) (ih ht hs')
    | escape => exact absurd (List.cons.inj hu).1 hr
  | lone r hr =>
    obtain rfl : r = '\\' := not_not.1 hr
    cases hi with
    | plain _ hescape _ => exact absurd rfl (hescape he).1
  | invalid => cases h
  | escape r hr e after c hc ih =>
    obtain rfl : r = '\\' := not_not.1 hr
    rw [inside_escape_iff he] at hi
    obtain ⟨s', hs', rfl⟩ := map_cons_eq_ok h
    rcases readEscape_cases hc with ⟨hdenotes, hwidth⟩ | ⟨digits, rest, rfl, hcode, hvalue, hwidth⟩
    · rw [hwidth, List.drop_zero] at ih hs'
      exact .cons (.simple hdenotes) (ih hi hs')
    · rw [hwidth, List.drop_left] at ih hs'
      rw [inside_digits_iff hvalue.all_digits] at hi
      exact .cons (.code hcode hvalue) (ih hi hs')

/-- The inside of a string reads as a text exactly if it is made of spellings of its runes. -/
theorem spellings_iff (he : quote.isEscaped = true) :
    Spellings quote.rune s body ↔ Inside quote body ∧ decode body = .ok s :=
  ⟨fun h => ⟨h.inside he, h.decode_eq⟩, fun h => spellings_of_decode he h.1 h.2⟩

/-- Between backquotes only a backquote is the end. -/
theorem inside_back_iff : Inside .back body ↔ Quote.back.rune ∉ body := by
  constructor
  · intro h
    induction h with
    | nil => exact List.not_mem_nil
    | plain hr _ _ ih => exact List.not_mem_cons_of_ne_of_not_mem (Ne.symm hr) ih
    | escape he => cases he
  · intro h
    induction body with
    | nil => exact .nil
    | cons r body ih =>
      obtain ⟨hr, hbody⟩ := List.ne_and_not_mem_of_not_mem_cons h
      exact .plain (Ne.symm hr) (by rintro ⟨⟩) (ih hbody)

end Literal

/-- What a text between quotes spells: between double or single quotes its runes are spelled one after the
other, between backquotes it stands for itself. -/
def Quote.Spells : Quote → (s body : Text) → Prop
  | .back, s, body => body = s ∧ Quote.back.rune ∉ s
  | quote, s, body => Literal.Spellings quote.rune s body

theorem spells_escaped {quote : Quote} {s body : Text} (he : quote.isEscaped = true) :
    quote.Spells s body ↔ Literal.Spellings quote.rune s body := by
  cases quote with
  | double => rfl
  | single => rfl
  | back => cases he

/-- The source of a string: a text between two quotes. -/
def Quote.enclose (quote : Quote) (body : Text) : Text := quote.rune :: (body ++ [quote.rune])

/-- A source is scanned as one token of a kind, from its start to its end. -/
def IsToken (kind : Kind) (source text : Text) : Prop :=
  ∃ pos, scan source text = ⟨[⟨kind, text, .start source⟩], .finished pos⟩

variable {limits : Limits} {source body s text : Text} {quote : Quote}

/-- A text between quotes is one string exactly if it is the inside of one. -/
theorem isToken_iff : IsToken quote.kind source (quote.enclose body) ↔ Lexeme.Inside quote body := by
  have hspace := Lexeme.isSpace_quote quote
  constructor
  · rintro ⟨pos, h⟩
    obtain ⟨inner, rest, hsplit, hinner, hcut | ⟨after, rfl⟩⟩ := Lexeme.inside_split quote (body ++ [quote.rune])
    · have hread : Lexeme.read quote.rune (body ++ [quote.rune]) = .error (.unclosedString quote) := by
        rw [Lexeme.read_string, hsplit, Lexeme.quoted_cut hinner hcut]
      rw [scan, Quote.enclose, Scan.scanFrom_error hspace hread] at h
      cases h
    · -- the token ends with the first closing quote, and so that one ends the source
      have hread : Lexeme.read quote.rune (body ++ [quote.rune]) = .ok ⟨quote.kind, inner ++ [quote.rune], after⟩ := by
        rw [Lexeme.read_string, hsplit, Lexeme.quoted_closed hinner]
      rw [scan, Quote.enclose, Scan.scanFrom_lexeme hspace hread] at h
      have htext : inner ++ [quote.rune] = body ++ [quote.rune] := by
        have htokens := congrArg (fun s => s.tokens.head?.map Token.text) h
        simpa [Scan.cons] using htokens
      rwa [List.append_cancel_right htext] at hinner
  · intro h
    have hread : Lexeme.read quote.rune (body ++ [quote.rune]) = .ok ⟨quote.kind, body ++ [quote.rune], []⟩ := by
      rw [Lexeme.read_string]
      exact Lexeme.quoted_closed h []
    refine ⟨(Cursor.start.advance (quote.enclose body)).position source, ?_⟩
    rw [scan, Quote.enclose, Scan.scanFrom_lexeme hspace hread, Scan.scanFrom_nil]
    rfl

/-- The node of a source that is one string. -/
def Quote.leaf (quote : Quote) (source text : Text) : Node := ⟨quote.kind, text, [], true, .start source⟩

/-- The tree of a source that is one string. -/
def Quote.tree (quote : Quote) (source text : Text) : Node :=
  (Tree.root source).into .lbrace "\x7b" [quote.leaf source text]

theorem parse_isToken (h : IsToken quote.kind source text) :
    parse limits source text = ⟨[], .ok (quote.tree source text)⟩ := by
  obtain ⟨pos, hscan⟩ := h
  have hfold : Statement.fold [quote.leaf source text] = [quote.leaf source text] := by cases quote <;> cbv
  have hreduce : Statement.reduce [quote.leaf source text] = [quote.leaf source text] := by cases quote <;> cbv
  have hcopied : Statement.copied [quote.leaf source text] = [] := by cases quote <;> rfl
  have hshallow : Statement.exhausts limits.nodes [quote.leaf source text] = false := by
    rw [Statement.exhausts, hfold, hreduce, Statement.copiesTooDeep, hcopied]
    rfl
  have hcheck : Statement.check [quote.leaf source text] = .ok (quote.leaf source text) := by cases quote <;> rfl
  have hgroup : Tree.split [] (Tree.groupAll limits (Tree.nodes ⟨[⟨quote.kind, text, .start source⟩], .finished pos⟩)) =
      [.item [quote.leaf source text]] := by
    cases quote <;> rfl
  unfold parse
  rw [hscan, Tree.statements, hgroup, Event.each, Tree.settle, hshallow, hreduce, hcheck]
  rfl

theorem compileAt_leaf (top : Position) (depth : Nat) :
    Code.compileAt limits top (depth + 1) (quote.leaf source text) =
      (Literal.ofString quote.kind text (.start source)).map .literal := by
  cases quote <;> rfl

/-- The program of a source that is one string is that string, or there is none where the string has no text. -/
theorem compile_tree (hnodes : 2 ≤ limits.nodes) :
    Program.compile limits (quote.tree source text) =
      (Literal.ofString quote.kind text (.start source)).map fun l =>
        ⟨quote.tree source text, .block [.literal l]⟩ := by
  obtain ⟨depth, hdepth⟩ := Nat.exists_eq_add_of_le' hnodes
  have hcompile : Code.compile limits (quote.tree source text) =
      (do return .block (← [quote.leaf source text].mapM (Code.compileAt limits (.start source) (depth + 1)))) := by
    rw [Code.compile, hdepth]
    rfl
  rw [Program.compile, hcompile, List.mapM_cons, compileAt_leaf]
  cases Literal.ofString quote.kind text (.start source) <;> rfl

theorem inside_enclose (quote : Quote) (body : Text) : Literal.inside (quote.enclose body) = body := by
  simp [Literal.inside, Quote.enclose]

theorem isToken_of_spells (h : quote.Spells s body) : IsToken quote.kind source (quote.enclose body) := by
  rw [isToken_iff]
  cases quote with
  | double => exact Literal.Spellings.inside rfl h
  | single => exact Literal.Spellings.inside rfl h
  | back =>
    obtain ⟨rfl, hback⟩ := h
    exact Literal.inside_back_iff.2 hback

/-- Where there are escapes, the text of a string is what its inside is read as. -/
theorem ofString_escaped (he : quote.isEscaped = true) (body : Text) (pos : Position) :
    Literal.ofString quote.kind (quote.enclose body) pos =
      match Literal.decode body with
      | .ok s => .ok (.str s)
      | .error escape => .error (.compile (.invalidEscape escape) pos) := by
  have hkind : quote.kind ≠ .backquoted := by
    cases quote with
    | back => cases he
    | _ => decide
  rw [Literal.ofString, if_neg hkind, inside_enclose, Literal.decodeAt]
  cases Literal.decode body <;> rfl

/-- A string token is read as the text that its inside spells, or it holds an escape that stands for nothing. -/
theorem ofString_cases (h : Lexeme.Inside quote body) (pos : Position) :
    (∃ s, Literal.ofString quote.kind (quote.enclose body) pos = .ok (.str s) ∧ quote.Spells s body) ∨
      ∃ escape, Literal.ofString quote.kind (quote.enclose body) pos = .error (.compile (.invalidEscape escape) pos) ∧
        ∀ s, ¬ quote.Spells s body := by
  cases he : quote.isEscaped with
  | true =>
    have hspells : ∀ s, quote.Spells s body ↔ Literal.decode body = .ok s := by
      intro s
      rw [spells_escaped he, Literal.spellings_iff he]
      exact and_iff_right h
    rw [ofString_escaped he]
    cases hdecode : Literal.decode body with
    | ok s => exact .inl ⟨s, rfl, (hspells s).2 hdecode⟩
    | error escape =>
      refine .inr ⟨escape, rfl, fun s hs => ?_⟩
      cases hdecode.symm.trans ((hspells s).1 hs)
  | false =>
    obtain rfl : quote = .back := by cases quote <;> first | rfl | cases he
    refine .inl ⟨body, ?_, rfl, Literal.inside_back_iff.1 h⟩
    rw [Literal.ofString, if_pos (show Quote.back.kind = .backquoted from rfl), inside_enclose]

/-- No text spells two strings. -/
theorem Quote.Spells.unique {s' : Text} (h : quote.Spells s body) (h' : quote.Spells s' body) : s = s' := by
  cases quote with
  | back => exact h.1.symm.trans h'.1
  | double => exact Except.ok.inj (h.decode_eq.symm.trans h'.decode_eq)
  | single => exact Except.ok.inj (h.decode_eq.symm.trans h'.decode_eq)

/-- String literals are read exactly as they are spelled. A text between quotes is one token, and its program is a
string, exactly if the text spells that string: rune by rune between double or single quotes, as it stands between
backquotes. A text between quotes that is one token but spells no string is rejected by the compiler. -/
theorem string_literals_exact {limits : Limits} (hnodes : 2 ≤ limits.nodes) (source : Text) (quote : Quote) (body : Text) :
    (∀ s, (IsToken quote.kind source (quote.enclose body) ∧
        ∃ p, Accepted limits source (quote.enclose body) p ∧ p.code = .block [.literal (.str s)]) ↔
      quote.Spells s body) ∧
    (IsToken quote.kind source (quote.enclose body) → (∀ s, ¬ quote.Spells s body) →
      ∃ cause pos, Rejected limits source (quote.enclose body) (.compile cause pos)) := by
  have hcompiled : IsToken quote.kind source (quote.enclose body) →
      (parse limits source (quote.enclose body)).result >>= Program.compile limits =
        (Literal.ofString quote.kind (quote.enclose body) (.start source)).map fun l =>
          ⟨quote.tree source (quote.enclose body), .block [.literal l]⟩ := by
    intro htoken
    rw [parse_isToken htoken]
    exact compile_tree hnodes
  refine ⟨fun s => ⟨?_, fun h => ?_⟩, fun htoken hnone => ?_⟩
  · rintro ⟨htoken, p, hp, hcode⟩
    rw [accepted_iff, hcompiled htoken] at hp
    rcases ofString_cases (isToken_iff.1 htoken) (.start source) with ⟨s', hs', hspells⟩ | ⟨escape, hescape, -⟩
    · rw [hs'] at hp
      cases hp
      cases hcode
      exact hspells
    · rw [hescape] at hp
      cases hp
  · have htoken : IsToken quote.kind source (quote.enclose body) := isToken_of_spells h
    refine ⟨htoken, ⟨quote.tree source (quote.enclose body), .block [.literal (.str s)]⟩, ?_, rfl⟩
    rw [accepted_iff, hcompiled htoken]
    rcases ofString_cases (isToken_iff.1 htoken) (.start source) with ⟨s', hs', hspells⟩ | ⟨escape, -, hnone⟩
    · rw [hs', h.unique hspells]
      rfl
    · exact absurd h (hnone s)
  · rcases ofString_cases (isToken_iff.1 htoken) (.start source) with ⟨s', -, hspells⟩ | ⟨escape, hescape, -⟩
    · exact absurd hspells (hnone s')
    · refine ⟨.invalidEscape escape, .start source, ?_⟩
      rw [rejected_iff, hcompiled htoken, hescape]
      rfl

/-- An escaped backslash before a code, an escaped quote, and a surrogate: the string is four runes long. A code that
lacks a digit has its string rejected, though it is one token. -/
theorem string_literals_exact_codes :
    let body : Text := "\\\\\\x41\\\"\\ud800"
    (Quote.double.Spells ['\\', 'A', '"', 0xD800] body ∧ IsToken .doubleQuoted [] (Quote.double.enclose body) ∧
      ∃ p, Accepted .standard [] (Quote.double.enclose body) p ∧
        p.code = .block [.literal (.str ['\\', 'A', '"', 0xD800])]) ∧
    IsToken .singleQuoted [] (Quote.single.enclose "\\x4") ∧ (∀ s, ¬ Quote.single.Spells s "\\x4") ∧
      ∃ cause pos, Rejected .standard [] (Quote.single.enclose "\\x4") (.compile cause pos) := by
  intro body
  have hletter : Literal.Spelling Quote.double.rune 'A' "\\x41" :=
    @Literal.Spelling.code _ _ 'x' "41" (by decide) (Literal.hexValue?_eq_some_iff.1 (by decide))
  have hsurrogate : Literal.Spelling Quote.double.rune 0xD800 "\\ud800" :=
    @Literal.Spelling.code _ _ 'u' "d800" (by decide) (Literal.hexValue?_eq_some_iff.1 (by decide))
  have hspells : Quote.double.Spells ['\\', 'A', '"', 0xD800] body :=
    .cons (.simple .backslash) (.cons hletter (.cons (.simple .doubleQuote) (.cons hsurrogate .nil)))
  have hnone : ∀ s, ¬ Quote.single.Spells s "\\x4" := by
    intro s hs
    have hdecode : (Literal.decode "\\x4").isOk = false := by decide +kernel
    rw [hs.decode_eq] at hdecode
    cases hdecode
  have htoken : IsToken .singleQuoted [] (Quote.single.enclose "\\x4") := ⟨⟨1, 6, []⟩, by decide +kernel⟩
  obtain ⟨haccepted, -⟩ := @string_literals_exact .standard (by decide) [] .double body
  obtain ⟨-, hrejected⟩ := @string_literals_exact .standard (by decide) [] .single "\\x4"
  exact ⟨⟨hspells, (haccepted _).2 hspells⟩, htoken, hnone, hrejected htoken hnone⟩

end Kettle
