/-
Fragments of sources. A text that is scanned to its end is scanned as the same tokens wherever it stands, if what stands
before it cannot end a statement and a line break stands after it.
-/
import Kettle.Proofs.Token.Append
import Kettle.Proofs.Token.Readback

namespace Kettle.Scan

open Token (label)

variable {source : Text} {last last' : Option Kind} {labels : List (Kind × Text)}

/-- Of what stands before a text, the scan only looks at whether it can end a statement. -/
theorem readsAs_scanFrom {text : Text} {cursor : Cursor} {pos : Position}
    (h : (scanFrom source cursor last text).ending = .finished pos)
    (hlast : last'.any Kind.endsStatement = last.any Kind.endsStatement) :
    ReadsAs source last' text ((scanFrom source cursor last text).tokens.map label) := by
  induction text using inductionOn generalizing cursor last last' with
  | nil =>
    rw [scanFrom_nil]
    exact readsAs_nil source last'
  | space r rest hs ih =>
    rw [scanFrom_space hs] at h ⊢
    intro cursor'
    rw [scanFrom_space hs, hlast]
    split at h
    · rename_i hbreak
      obtain ⟨ts, pos', hscan, hts⟩ := ih h rfl (cursor'.step r)
      rw [if_pos hbreak, if_pos hbreak, hscan]
      exact ⟨_, pos', rfl, congrArg (List.cons _) hts⟩
    · rename_i hbreak
      rw [if_neg hbreak, if_neg hbreak]
      exact ih h hlast (cursor'.step r)
  | error r rest cause hs hr =>
    rw [scanFrom_error hs hr] at h
    cases h
  | lexeme r rest l hs hr ih =>
    rw [scanFrom_lexeme hs hr] at h ⊢
    intro cursor'
    have hkind : (if l.kind.isComment then last' else some l.kind).any Kind.endsStatement =
        (if l.kind.isComment then last else some l.kind).any Kind.endsStatement := by
      split
      · exact hlast
      · rfl
    obtain ⟨ts, pos', hscan, hts⟩ := ih h hkind (cursor'.advance (r :: l.more))
    rw [scanFrom_lexeme hs hr, hscan]
    exact ⟨_, pos', rfl, congrArg (List.cons _) hts⟩

/-- Whether a line break behind tokens ends a statement; `ends` says whether one right before them does. -/
def endsStatement (ends : Bool) (labels : List (Kind × Text)) : Bool :=
  labels.foldl (fun ends label => if label.1.isComment then ends else label.1.endsStatement) ends

theorem any_lastKind (last : Option Kind) (ts : List Token) :
    (lastKind last ts).any Kind.endsStatement = endsStatement (last.any Kind.endsStatement) (ts.map label) := by
  induction ts generalizing last with
  | nil => rfl
  | cons t ts ih =>
    have hkind : (if t.kind.isComment then last else some t.kind).any Kind.endsStatement =
        if t.kind.isComment then last.any Kind.endsStatement else t.kind.endsStatement := by
      split <;> rfl
    exact (ih _).trans (congrArg (fun ends => endsStatement ends (ts.map label)) hkind)

/-- The separator that a line break behind tokens is, if it ends a statement. -/
def lineEnd (ends : Bool) (labels : List (Kind × Text)) : List (Kind × Text) :=
  if endsStatement ends labels then [(.separator, "\n")] else []

/-- Texts with a line break between them are read as what they are, if the second one is read alike behind all
tokens. -/
theorem ReadsAs.line {text rest : Text} {labels' : List (Kind × Text)} (h : ReadsAs source last text labels)
    (hrest : ∀ last, ReadsAs source last rest labels') : ReadsAs source last (text ++ ('\n' : Rune) :: rest)
      (labels ++ (lineEnd (last.any Kind.endsStatement) labels ++ labels')) := by
  intro cursor
  obtain ⟨ts, pos, hscan, rfl⟩ := h cursor
  have hfeed : Lexeme.isSpace '\n' = true := by decide
  have hbreak : Lexeme.isBreak '\n' = true := by decide
  rw [scanFrom_append (by rw [hscan]) rest, hscan, scanFrom_space hfeed, hbreak, Bool.true_and, any_lastKind, lineEnd]
  split
  · obtain ⟨ts', pos', hscan', rfl⟩ := hrest (some .separator) ((cursor.advance text).step '\n')
    rw [hscan']
    exact ⟨_, pos', rfl, List.map_append⟩
  · obtain ⟨ts', pos', hscan', rfl⟩ := hrest (lastKind last ts) ((cursor.advance text).step '\n')
    rw [hscan']
    exact ⟨_, pos', rfl, List.map_append⟩

/-- A token and a blank behind it. -/
theorem ReadsAs.word {kind : Kind} {text rest : Text} (hspells : Lexeme.Spells kind text)
    (hcomment : kind.isComment = false) (h : ReadsAs source (some kind) rest labels) :
    ReadsAs source last (text ++ (' ' : Rune) :: rest) ((kind, text) :: labels) :=
  .lexeme hspells hcomment (ends_blank hcomment _ _) h.blank

/-- A parenthesis and whatever is behind it. -/
theorem ReadsAs.paren {kind : Kind} {r : Rune} {rest : Text} (hr : r = '(' ∧ kind = .lpar ∨ r = ')' ∧ kind = .rpar)
    (h : ReadsAs source (some kind) rest labels) : ReadsAs source last (r :: rest) ((kind, [r]) :: labels) := by
  have hfacts : (r, kind) ∈ Lexeme.singles ∧ kind.isComment = false ∧ kind ≠ .ident ∧ kind ≠ .number ∧ r ≠ '/' ∧
      ∀ d ∈ Lexeme.doubles, d.1.1 ≠ r := by
    rcases hr with ⟨rfl, rfl⟩ | ⟨rfl, rfl⟩ <;> decide
  obtain ⟨hsingle, hcomment, hident, hnumber, hslash, hdoubles⟩ := hfacts
  refine .lexeme (.single hsingle) hcomment (fun next _ => ?_) h
  refine ⟨fun hk => absurd hk hident, fun hk => absurd hk hnumber, by simp [hcomment], ?_⟩
  rintro r' ⟨⟩
  exact ⟨fun op hop => hdoubles _ hop rfl, fun hr => hslash hr.1⟩

/-- The tokens of a fragment and of the line break behind it, where nothing before it can end a statement. -/
def fragment (source y : Text) : List (Kind × Text) :=
  (scan source y).tokens.map label ++ lineEnd false ((scan source y).tokens.map label)

/-- A fragment in parentheses, with a line break behind it. -/
theorem ReadsAs.fragment {y rest : Text} {pos : Position} (hy : (scan source y).ending = .finished pos)
    (hrest : ReadsAs source (some .rpar) rest labels) (last : Option Kind) :
    ReadsAs source last (('(' : Rune) :: (y ++ ('\n' : Rune) :: (')' : Rune) :: rest))
      ((.lpar, "(") :: (Scan.fragment source y ++ (Kind.rpar, (")" : Text)) :: labels)) := by
  have hfragment : ReadsAs source (some .lpar) y ((scan source y).tokens.map label) := readsAs_scanFrom hy rfl
  rw [Scan.fragment, List.append_assoc]
  exact .paren (.inl ⟨rfl, rfl⟩) (hfragment.line fun _ => .paren (.inr ⟨rfl, rfl⟩) hrest)

end Kettle.Scan
