/-
Scanning line by line. A line feed ends every lexeme before it, so what is scanned before one stays
the same whatever comes after it; and a text further down in a source has the same tokens, only on
other lines.
-/
import Kettle.Token.Scan
import Mathlib.Tactic.Common

namespace Kettle

/-! ## Positions further down -/

/-- A position some lines further down. -/
def Position.down (k : Nat) (p : Position) : Position := ⟨p.line + k, p.column, p.source⟩

namespace Cursor

/-- A cursor some lines further down. -/
def down (k : Nat) (c : Cursor) : Cursor := ⟨c.line + k, c.column, c.afterReturn⟩

@[simp] theorem step_down (k : Nat) (c : Cursor) (r : Rune) : (c.down k).step r = (c.step r).down k := by
  have hline : c.line + 1 + k = c.line + k + 1 := by omega
  unfold step
  simp only [apply_ite (down k)]
  simp only [down, hline]
  rfl

@[simp] theorem advance_down (k : Nat) (c : Cursor) (t : Text) : (c.down k).advance t = (c.advance t).down k := by
  induction t generalizing c with
  | nil => rfl
  | cons r t ih => rw [advance_cons, advance_cons, step_down, ih]

/-- After a line feed that does not end a carriage return the cursor is at the start of a line. -/
theorem step_feed (c : Cursor) (h : c.afterReturn = false) : c.step '\n' = start.down c.line := by
  have htab : ¬ ('\n' : Rune) = '\t' := by decide
  have hreturn : ¬ ('\n' : Rune) = '\r' := by decide
  have hline : c.line + 1 = 1 + c.line := by omega
  simp [step, h, start, down, hline, htab, hreturn]

end Cursor

/-- The token with its position moved. -/
def Token.relocate (φ : Position → Position) (t : Token) : Token := ⟨t.kind, t.text, φ t.pos⟩

/-- The ending with its position moved. -/
def Ending.relocate (φ : Position → Position) : Ending → Ending
  | .finished pos => .finished (φ pos)
  | .failed cause pos => .failed cause (φ pos)

namespace Scan

/-- The scan with all positions moved. -/
def relocate (φ : Position → Position) (s : Scan) : Scan := ⟨s.tokens.map (Token.relocate φ), s.ending.relocate φ⟩

/-- The scan with more tokens before it. -/
def prepend (ts : List Token) (s : Scan) : Scan := ⟨ts ++ s.tokens, s.ending⟩

variable {source : Text} {cursor : Cursor} {last : Option Kind}

/-! ## One step of a scan -/

theorem scanFrom_nil (source : Text) (cursor : Cursor) (last : Option Kind) :
    scanFrom source cursor last [] = ⟨[], .finished (cursor.position source)⟩ := by
  rw [scanFrom]

/-- A blank is a separator where a statement can end, and else nothing. -/
theorem scanFrom_space {r : Rune} (h : Lexeme.isSpace r = true) (rest : Text) :
    scanFrom source cursor last (r :: rest) =
      if Lexeme.isBreak r && last.any Kind.endsStatement then
        cons ⟨.separator, [r], cursor.position source⟩ (scanFrom source (cursor.step r) (some .separator) rest)
      else scanFrom source (cursor.step r) last rest := by
  rw [scanFrom, if_pos h]

theorem scanFrom_error {r : Rune} {rest : Text} {cause : LexicalCause} (h : Lexeme.isSpace r = false)
    (hr : Lexeme.read r rest = .error cause) :
    scanFrom source cursor last (r :: rest) = ⟨[], .failed cause (cursor.position source)⟩ := by
  rw [scanFrom, if_neg (by simp [h])]
  split
  · rename_i hr'; rw [hr] at hr'; cases hr'; rfl
  · rename_i hr'; rw [hr] at hr'; cases hr'

theorem scanFrom_lexeme {r : Rune} {rest : Text} {l : Lexeme} (h : Lexeme.isSpace r = false)
    (hr : Lexeme.read r rest = .ok l) :
    scanFrom source cursor last (r :: rest) = cons ⟨l.kind, r :: l.more, cursor.position source⟩
      (scanFrom source (cursor.advance (r :: l.more)) (if l.kind.isComment then last else some l.kind) l.rest) := by
  rw [scanFrom, if_neg (by simp [h])]
  split
  · rename_i hr'; rw [hr] at hr'; cases hr'
  · rename_i hr'; rw [hr] at hr'; cases hr'; rfl

/-- Induction over a text in the steps of a scan. -/
@[elab_as_elim]
theorem inductionOn {P : Text → Prop} (text : Text) (nil : P [])
    (space : ∀ r rest, Lexeme.isSpace r = true → P rest → P (r :: rest))
    (error : ∀ r rest cause, Lexeme.isSpace r = false → Lexeme.read r rest = .error cause → P (r :: rest))
    (lexeme : ∀ r rest l, Lexeme.isSpace r = false → Lexeme.read r rest = .ok l → P l.rest → P (r :: rest)) :
    P text := by
  match text with
  | [] => exact nil
  | r :: rest =>
    cases hs : Lexeme.isSpace r with
    | true => exact space r rest hs (inductionOn rest nil space error lexeme)
    | false =>
      cases hr : Lexeme.read r rest with
      | error cause => exact error r rest cause hs hr
      | ok l =>
        have := Lexeme.read_rest_length hr
        exact lexeme r rest l hs hr (inductionOn l.rest nil space error lexeme)
termination_by text.length

/-! ## Scanning further down -/

/-- Of the token before a text, the scan only looks at whether it can end a statement, and of the line
at nothing. -/
theorem scanFrom_down (k : Nat) {last' : Option Kind}
    (hlast : last'.any Kind.endsStatement = last.any Kind.endsStatement) (text : Text) :
    scanFrom source (cursor.down k) last' text = (scanFrom source cursor last text).relocate (Position.down k) := by
  induction text using inductionOn generalizing cursor last last' with
  | nil => rw [scanFrom_nil, scanFrom_nil]; rfl
  | space r rest hs ih =>
    rw [scanFrom_space hs, scanFrom_space hs, hlast, Cursor.step_down]
    split
    · rw [@ih _ (some .separator) _ rfl]; rfl
    · exact ih hlast
  | error r rest cause hs hr => rw [scanFrom_error hs hr, scanFrom_error hs hr]; rfl
  | lexeme r rest l hs hr ih =>
    have hkind : (if l.kind.isComment then last' else some l.kind).any Kind.endsStatement =
        (if l.kind.isComment then last else some l.kind).any Kind.endsStatement := by
      split
      · exact hlast
      · rfl
    rw [scanFrom_lexeme hs hr, scanFrom_lexeme hs hr, Cursor.advance_down, ih hkind]
    rfl

end Scan

/-! ## Lexemes before a line feed -/

namespace Lexeme

/-- The lexeme with more text after it. -/
def before (l : Lexeme) (u : Text) : Lexeme := ⟨l.kind, l.more, l.rest ++ u⟩

theorem span_append_of_not {p : Rune → Bool} {x : Rune} (h : p x = false) (t u : Text) :
    (t ++ x :: u).takeWhile p = t.takeWhile p ∧ (t ++ x :: u).dropWhile p = t.dropWhile p ++ x :: u := by
  induction t with
  | nil => simp [h]
  | cons r t ih =>
    rw [List.cons_append, List.takeWhile_cons, List.takeWhile_cons, List.dropWhile_cons, List.dropWhile_cons]
    cases hp : p r with
    | true => simpa using ih
    | false => simp

theorem run_before {kind : Kind} {p : Rune → Bool} (h : p '\n' = false) (t u : Text) :
    run kind p (t ++ (('\n' : Rune) :: u)) = (run kind p t).before (('\n' : Rune) :: u) := by
  obtain ⟨htake, hdrop⟩ := span_append_of_not h t u
  unfold run before
  rw [htake, hdrop]

theorem number_before {point : Bool} {t : Text} {l : Lexeme} (h : number point t = .ok l) (u : Text) :
    number point (t ++ (('\n' : Rune) :: u)) = .ok (l.before (('\n' : Rune) :: u)) := by
  have hextend : ∀ {x x' : Except LexicalCause Lexeme} {r : Rune} {l : Lexeme},
      (∀ l', x = .ok l' → x' = .ok (l'.before (('\n' : Rune) :: u))) → x.map (extend [r]) = .ok l →
      x'.map (extend [r]) = .ok (l.before (('\n' : Rune) :: u)) := by
    intro x x' r l hx h
    obtain ⟨l', hl', rfl⟩ := map_eq_ok h
    rw [hx l' hl']
    rfl
  induction point, t using number_induct generalizing l with
  | nil =>
    cases h
    have hdigit : Rune.isAsciiDigit '\n' = false := by decide
    have hword : startsWord '\n' = false := by decide
    have hdot : ¬ ('\n' : Rune) = '.' := by decide
    simp [number, before, hdigit, hword, hdot]
  | digit point r rest hr ih =>
    rw [List.cons_append, number, if_pos hr]
    exact hextend (fun _ => ih) h
  | secondPoint => cases h
  | point point rest hr hp ih =>
    rw [List.cons_append, number, if_neg hr, if_pos rfl, if_neg hp]
    exact hextend (fun _ => ih) h
  | letter => cases h
  | ending point r rest hr hdot hword =>
    cases h
    rw [List.cons_append, number, if_neg hr, if_neg hdot, if_neg hword]
    rfl

theorem quoted_before {quote : Quote} {t : Text} {l : Lexeme} (h : quoted quote t = .ok l) (u : Text) :
    quoted quote (t ++ u) = .ok (l.before u) := by
  induction t using quoted_induct quote generalizing l with
  | nil => cases h
  | lineBreak => cases h
  | loneEscape => cases h
  | escape r hbreak hesc next after ih =>
    obtain ⟨l', hl', rfl⟩ := map_eq_ok h
    simp only [List.cons_append]
    rw [quoted, if_neg hbreak, if_pos hesc]
    simp only [ih hl']
    rfl
  | closing rest hbreak hesc =>
    cases h
    rw [List.cons_append, quoted.eq_def]
    simp only [if_neg hbreak, if_neg hesc, if_true]
    rfl
  | plain r rest hbreak hesc hquote ih =>
    obtain ⟨l', hl', rfl⟩ := map_eq_ok h
    rw [List.cons_append, quoted.eq_def]
    simp only [if_neg hbreak, if_neg hesc, if_neg hquote, ih hl']
    rfl

theorem double?_feed (r : Rune) (u : Text) : double? r (('\n' : Rune) :: u) = none := by
  have hnone : ∀ d ∈ doubles, d.1.2 ≠ ('\n' : Rune) := by decide
  rw [double?, Option.map_eq_none_iff, List.lookup_eq_none_iff]
  intro d hd
  have := hnone d hd
  obtain ⟨⟨a, b⟩, k⟩ := d
  simp only [ne_eq, Prod.mk.injEq, not_and, bne_iff_ne]
  exact fun _ he => this he.symm

theorem operator?_before {r : Rune} {t : Text} (u : Text) :
    operator? r (t ++ (('\n' : Rune) :: u)) = (operator? r t).map (·.before (('\n' : Rune) :: u)) := by
  unfold operator?
  cases t with
  | nil =>
    rw [List.nil_append, double?_feed]
    simp only [double?, Option.map_map]
    rfl
  | cons next after =>
    simp only [List.cons_append, double?]
    cases doubles.lookup (r, next) with
    | some kind => rfl
    | none => simp only [Option.map_none, Option.map_map]; rfl

/-- A line feed ends a lexeme before it. -/
theorem read_before {r : Rune} {t : Text} {l : Lexeme} (h : read r t = .ok l) (u : Text) :
    read r (t ++ (('\n' : Rune) :: u)) = .ok (l.before (('\n' : Rune) :: u)) := by
  have hcomment : (!isBreak '\n') = false := by decide
  have hword : continuesWord '\n' = false := by decide
  unfold read at h ⊢
  split at h
  · rename_i hr
    rw [if_pos hr, run_before hcomment]
    cases h
    rfl
  · rename_i hr
    rw [if_neg hr]
    cases hq : Quote.ofRune? r with
    | some quote =>
      rw [hq] at h
      exact quoted_before h _
    | none =>
      rw [hq] at h
      simp only at h ⊢
      split at h
      · rename_i hd
        rw [if_pos hd]
        exact number_before h u
      · rename_i hd
        rw [if_neg hd]
        -- a slash is not taken for a comment because of what comes after the line feed
        have hhead : (decide (r = '/') && decide ((t ++ (('\n' : Rune) :: u)).head? = some ('/' : Rune))) =
            (decide (r = '/') && decide (t.head? = some ('/' : Rune))) := by
          cases t with
          | nil =>
            have : ¬ (some ('\n' : Rune)) = some ('/' : Rune) := by decide
            simp [this]
          | cons next after => rfl
        rw [hhead]
        split at h
        · rename_i hs
          rw [if_pos hs, run_before hcomment]
          cases h
          rfl
        · rename_i hs
          rw [if_neg hs, operator?_before]
          cases ho : operator? r t with
          | some l' =>
            rw [ho] at h
            cases h
            rfl
          | none =>
            rw [ho] at h
            simp only [Option.map_none] at h ⊢
            split at h
            · rename_i hw
              rw [if_pos hw, run_before hword]
              cases h
              rfl
            · cases h

end Lexeme

/-! ## Scanning text before a line feed -/

namespace Scan

/-- The kind of the last token that is no comment, after more tokens. -/
def lastKind (last : Option Kind) (ts : List Token) : Option Kind :=
  ts.foldl (fun last t => if t.kind.isComment then last else some t.kind) last

/-- What is scanned before a line feed stays the same, whatever is after it. -/
theorem scanFrom_append {source text : Text} {cursor : Cursor} {last : Option Kind} {pos : Position}
    (h : (scanFrom source cursor last text).ending = .finished pos) (u : Text) :
    scanFrom source cursor last (text ++ (('\n' : Rune) :: u)) =
      (scanFrom source (cursor.advance text) (lastKind last (scanFrom source cursor last text).tokens)
        (('\n' : Rune) :: u)).prepend (scanFrom source cursor last text).tokens := by
  induction text using inductionOn generalizing cursor last with
  | nil => rw [scanFrom_nil]; rfl
  | space r rest hs ih =>
    rw [scanFrom_space hs] at h ⊢
    rw [List.cons_append, scanFrom_space hs]
    split at h
    · rename_i hbreak
      rw [if_pos hbreak, if_pos hbreak, ih h]
      rfl
    · rename_i hbreak
      rw [if_neg hbreak, if_neg hbreak, ih h]
      rfl
  | error r rest cause hs hr =>
    rw [scanFrom_error hs hr] at h
    cases h
  | lexeme r rest l hs hr ih =>
    rw [scanFrom_lexeme hs hr] at h ⊢
    -- the same lexeme is read, and the text after it is the text after it with more behind it
    have hnext : scanFrom source cursor last (r :: (rest ++ (('\n' : Rune) :: u))) =
        cons ⟨l.kind, r :: l.more, cursor.position source⟩ (scanFrom source (cursor.advance (r :: l.more))
          (if l.kind.isComment then last else some l.kind) (l.rest ++ (('\n' : Rune) :: u))) :=
      scanFrom_lexeme hs (Lexeme.read_before hr u)
    have hadvance : cursor.advance (r :: rest) = (cursor.advance (r :: l.more)).advance l.rest := by
      rw [← Cursor.advance_append, List.cons_append, Lexeme.read_append hr]
    rw [List.cons_append, hnext, hadvance, ih h]
    rfl

theorem prepend_prepend (ts ts' : List Token) (s : Scan) : (s.prepend ts').prepend ts = s.prepend (ts ++ ts') := by
  simp [prepend]

/-- A line feed is a separator or nothing, and behind it a text is scanned as if it started a source, only on other
lines. -/
theorem scanFrom_feed (source : Text) {cursor : Cursor} (last : Option Kind) {k : Nat}
    (hcursor : cursor.step '\n' = Cursor.start.down k) : ∃ seps : List Token, (∀ t ∈ seps, t.kind = .separator) ∧
      ∀ u, scanFrom source cursor last (('\n' : Rune) :: u) =
        ((scan source u).relocate (Position.down k)).prepend seps := by
  have hfeed : Lexeme.isSpace '\n' = true := by decide
  have hbreak : Lexeme.isBreak '\n' = true := by decide
  have hdown : ∀ {last' : Option Kind}, last'.any Kind.endsStatement = false → ∀ u,
      scanFrom source (Cursor.start.down k) last' u = (scan source u).relocate (Position.down k) :=
    fun hlast u => scanFrom_down k hlast u
  cases hlast : last.any Kind.endsStatement with
  | true =>
    refine ⟨[⟨.separator, ['\n'], cursor.position source⟩], by simp, fun u => ?_⟩
    rw [scanFrom_space hfeed, hbreak, hlast, hcursor]
    exact congrArg (cons _) (hdown rfl u)
  | false =>
    refine ⟨[], by simp, fun u => ?_⟩
    rw [scanFrom_space hfeed, hbreak, hlast, hcursor]
    exact hdown hlast u

/-- What a line feed, a semicolon and a line feed add between two texts: separators, and as many lines
as there are up to the second text. -/
theorem scanFrom_join (source u : Text) (cursor : Cursor) (last : Option Kind) :
    ∃ seps k, seps ≠ [] ∧ (∀ t ∈ seps, t.kind = .separator) ∧
      scanFrom source cursor last ("\n;\n" ++ u) =
        ((scan source u).relocate (Position.down k)).prepend seps := by
  have hfeed : Lexeme.isSpace '\n' = true := by decide
  have hsemi : Lexeme.isSpace ';' = false := by decide
  have hread : Lexeme.read ';' (('\n' : Rune) :: u) = .ok ⟨.separator, [], ('\n' : Rune) :: u⟩ := rfl
  -- from the semicolon on, nothing depends on what was before it but the line
  have hrest : ∀ c last, ∃ seps k, seps ≠ [] ∧ (∀ t ∈ seps, t.kind = .separator) ∧
      scanFrom source c last ((';' : Rune) :: ('\n' : Rune) :: u) =
        ((scan source u).relocate (Position.down k)).prepend seps := by
    intro c last
    have hreturn : (c.advance [(';' : Rune)]).afterReturn = false := by
      have h₁ : ¬ (';' : Rune) = '\t' := by decide
      have h₂ : ¬ (';' : Rune) = '\n' := by decide
      have h₃ : ¬ (';' : Rune) = '\r' := by decide
      simp [Cursor.step, h₁, h₂, h₃]
    obtain ⟨seps, hseps, hscan⟩ := scanFrom_feed source (some .separator) (Cursor.step_feed _ hreturn)
    refine ⟨⟨.separator, [';'], c.position source⟩ :: seps, (c.advance [(';' : Rune)]).line, by simp,
      List.forall_mem_cons.2 ⟨rfl, hseps⟩, ?_⟩
    rw [scanFrom_lexeme hsemi hread]
    exact congrArg (cons _) (hscan u)
  have htext : Text.ofString "\n;\n" ++ u = ('\n' : Rune) :: (';' : Rune) :: ('\n' : Rune) :: u := rfl
  rw [htext, scanFrom_space hfeed]
  split
  · obtain ⟨seps, k, -, hseps, hscan⟩ := hrest (cursor.step '\n') (some .separator)
    rw [hscan]
    exact ⟨⟨.separator, ['\n'], cursor.position source⟩ :: seps, k, by simp, List.forall_mem_cons.2 ⟨rfl, hseps⟩, rfl⟩
  · exact hrest (cursor.step '\n') last

end Scan

/-- The tokens of two texts with a line of a semicolon between them are those of the first text,
separators, and those of the second one further down. -/
theorem scan_join {source s : Text} {pos : Position} (h : (scan source s).ending = .finished pos) (u : Text) :
    ∃ seps k, seps ≠ [] ∧ (∀ t ∈ seps, t.kind = .separator) ∧
      scan source (s ++ ("\n;\n" ++ u)) =
        ((scan source u).relocate (Position.down k)).prepend ((scan source s).tokens ++ seps) := by
  obtain ⟨seps, k, hne, hkind, hrest⟩ := Scan.scanFrom_join source u (Cursor.start.advance s)
    (Scan.lastKind none (scan source s).tokens)
  refine ⟨seps, k, hne, hkind, ?_⟩
  rw [← Scan.prepend_prepend, ← hrest]
  exact Scan.scanFrom_append h _

end Kettle
