/-
Reading back values that are shown. Nil, the truth values, integers and tuples of them are shown as
sources of one statement, and running that source gives the value again and binds nothing. The least
integer is the exception: its magnitude is too large for a literal, so it is read back as a double.
-/
import Kettle.Proofs.Eval.Values
import Kettle.Proofs.Tree.Roundtrip

namespace Kettle

namespace Value

/-! ## Values that are read back -/

/-- The values that are read back: nil, truth values, integers with a magnitude below `2 ^ 63`, and tuples of
such values, but for those of one value. -/
inductive Readable : Value → Prop where
  | nil : Readable .nil
  | bool (b : Bool) : Readable (.bool b)
  | int {n : Int} (hleast : -(2 ^ 63 - 1) ≤ n) (hgreatest : n ≤ 2 ^ 63 - 1) : Readable (.int n)
  | tuple {items : List Value} (hlength : items.length ≠ 1) (h : ∀ v ∈ items, Readable v) : Readable (.tuple items)

mutual

/-- How many tuples lie inside one another. -/
def nesting : Value → Nat
  | tuple items => nestingAll items + 1
  | _ => 0

/-- How many tuples lie inside one another in some values. -/
def nestingAll : List Value → Nat
  | [] => 0
  | v :: vs => max (nesting v) (nestingAll vs)

end

mutual

/-- The words that a value is shown as. -/
def words : Value → List Text
  | int n => if n < 0 then [("-" : Text), Text.ofNat n.natAbs] else [Text.ofNat n.natAbs]
  | tuple items => ("(" : Text) :: (Text.spread (",": Text) (wordsAll items) ++ [(")" : Text)])
  | v => [v.shown]

/-- The words that values are shown as. -/
def wordsAll : List Value → List (List Text)
  | [] => []
  | v :: vs => words v :: wordsAll vs

end

/-- A node of a tree that stands nowhere in particular. -/
def node (kind : Kind) (text : Text) (children : List Node) : Node := ⟨kind, text, children, true, .start []⟩

mutual

/-- The tree that the words of a value are read as. -/
def tree : Value → Node
  | int n =>
    if n < 0 then node .neg "-" [node .number (Text.ofNat n.natAbs) []] else node .number (Text.ofNat n.natAbs) []
  | tuple [] => node .lpar "(" []
  | tuple (v :: vs) => node .lpar "(" [node .comma "," (tree v :: treeAll vs)]
  | v => node .ident v.shown []

/-- The trees that the words of values are read as. -/
def treeAll : List Value → List Node
  | [] => []
  | v :: vs => tree v :: treeAll vs

end

theorem wordsAll_eq (vs : List Value) : wordsAll vs = vs.map words := by
  induction vs with
  | nil => rfl
  | cons v vs ih => rw [wordsAll, ih]; rfl

theorem treeAll_eq (vs : List Value) : treeAll vs = vs.map tree := by
  induction vs with
  | nil => rfl
  | cons v vs ih => rw [treeAll, ih]; rfl

theorem shownAll_map (vs : List Value) : shownAll vs = vs.map shown := by
  induction vs with
  | nil => rfl
  | cons v vs ih => rw [shownAll, ih]; rfl

theorem nesting_le_nestingAll {v : Value} {vs : List Value} (h : v ∈ vs) : v.nesting ≤ nestingAll vs := by
  induction vs with
  | nil => cases h
  | cons w vs ih =>
    rw [nestingAll]
    rcases List.mem_cons.1 h with rfl | h
    · exact Nat.le_max_left _ _
    · exact (ih h).trans (Nat.le_max_right _ _)

theorem Readable.isFlow {v : Value} (h : v.Readable) : v.isFlow = false := by cases h <;> rfl

end Value

/-! ## Words of values as statements -/

namespace Tree

open Statement (Primary)
open Value (node)

variable {v : Value} {n : Node} {w : Text}

theorem isElement_name (h : Lexeme.Spells .ident w) (hw : Node.keywords.lookup w = none) :
    IsElement [w] (node .ident w []) := by
  have hword : (node .ident w []).IsWord := by
    refine ⟨⟨.ident, w, .start []⟩, ?_, h, rfl⟩
    simp [node, Node.ofToken, Node.kindOf, hw, Node.isOperand]
  have hprimary : Primary [node .ident w []] (node .ident w []) :=
    .callable (.callee (.name rfl)) fun only henclosed => by cases henclosed.1
  exact ⟨[node .ident w []], spelled_word hword (by simp [node, unwrittenKinds, bracketKinds]), tiers_of_primary hprimary,
    by simp [node, isSeparator, Node.isLoose]⟩

theorem isWord_number (k : Nat) : (node .number (Text.ofNat k) []).IsWord :=
  ⟨⟨.number, Text.ofNat k, .start []⟩, rfl,
    Decimal.spells_of_digits (Decimal.allDigits_ofNat k) (Decimal.ofNat_ne_nil k), rfl⟩

theorem isElement_int (n : Int) : IsElement (Value.int n).words (Value.int n).tree := by
  let number : Node := node .number (Text.ofNat n.natAbs) []
  let minus : Node := .ofToken ⟨.minus, "-", .start []⟩
  have hminus : minus.IsWord := ⟨⟨.minus, "-", .start []⟩, rfl, .single (by decide), rfl⟩
  have hspelled : Spelled [number.text] [number] := spelled_word (isWord_number _) (by simp [number, node, unwrittenKinds, bracketKinds])
  have hprimary : Primary [number] number := .leaf rfl (by simp [number, node, Statement.leafKinds])
  by_cases hn : n < 0
  · rw [Value.words, if_pos hn, Value.tree, if_pos hn]
    have hsigned := signed_of_sign hminus (show Statement.unary? minus.kind = some .neg from rfl) hprimary
    refine ⟨[minus, number], .word hminus (by decide) hspelled, .single (.single (.single (.single hsigned))), ?_⟩
    simp [minus, number, node, isSeparator, Node.isLoose, Node.ofToken, Node.kindOf]
  · rw [Value.words, if_neg hn, Value.tree, if_neg hn]
    exact ⟨[number], hspelled, tiers_of_primary hprimary, by simp [number, node, isSeparator, Node.isLoose]⟩

/-- A parenthesis around nothing, or around a comma list, is an operand. -/
theorem isElement_group {inner : List Text} {p children : List Node} (hinner : Spelled inner p)
    (hp : Sentences p children) (h : ∀ only, ¬ (node .lpar "(" children).Encloses only) :
    IsElement (("(" : Text) :: (inner ++ [(")" : Text)])) (node .lpar "(" children) := by
  have hspelled : Spelled (("(" : Text) :: (inner ++ [(")" : Text)])) [node .lpar "(" children] :=
    @Spelled.group (node .lpar "(" children) ")" _ _ _ _ rfl rfl hinner hp .nil
  exact ⟨_, hspelled, tiers_of_primary (.callable (.callee (.group rfl)) h),
    by simp [node, isSeparator, Node.isLoose]⟩

/-- The words of a value are read as its tree. -/
theorem isElement_readable (h : v.Readable) : IsElement v.words v.tree := by
  induction h with
  | nil => exact isElement_name (.word (by decide) (List.all_eq_true.1 (by decide))) (by decide)
  | bool b => cases b <;> exact isElement_name (.word (by decide) (List.all_eq_true.1 (by decide))) (by decide)
  | int => exact isElement_int _
  | @tuple items hlength _ ih =>
    rw [Value.words, Value.wordsAll_eq]
    match items with
    | [] => exact isElement_group .nil .nil fun only h => by cases h.2.1
    | [x] => exact absurd rfl hlength
    | x :: y :: more =>
      let comma : Node := .ofToken ⟨.comma, ",", .start []⟩
      have hcomma : comma.IsWord := ⟨⟨.comma, ",", .start []⟩, rfl, .single (by decide), rfl⟩
      obtain ⟨s, hs, hinline, helements⟩ := elements_of_parts hcomma rfl ih
      rw [Value.tree, Value.treeAll_eq]
      refine isElement_group hs (.last hinline (.plain (.single (.many helements)))) fun only h => ?_
      cases h.2.1
      exact h.2.2 rfl

/-! ## How deep the words of values go -/

open Node (weight nesting)

variable {d : Nat}

theorem level_of_isElement {ws : List Text} (h : IsElement ws n) : level ws = 0 := by
  obtain ⟨s, hs, -⟩ := h
  exact hs.level_eq

/-- Commas between words that close their brackets make nothing deeper. -/
theorem nesting_spread {parts : List (List Text)} (h : ∀ ws ∈ parts, level ws = 0 ∧ nesting ws ≤ d) :
    level (Text.spread (",": Text) parts) = 0 ∧ nesting (Text.spread (",": Text) parts) ≤ d := by
  induction parts with
  | nil => exact ⟨rfl, by simp [Text.spread, nesting]⟩
  | cons ws parts ih =>
    obtain ⟨hlevel, hnesting⟩ := h ws (by simp)
    cases parts with
    | nil => exact ⟨hlevel, hnesting⟩
    | cons ws' parts =>
      obtain ⟨hlevel', hnesting'⟩ := ih fun v hv => h v (by simp [hv])
      have hcomma : weight (",": Text) = 0 := by decide
      rw [Text.spread, level_append, level, nesting_append, nesting, hlevel, hcomma]
      omega

theorem nesting_int (n : Int) : nesting (Value.int n).words = 0 := by
  have hnumber : weight (Text.ofNat n.natAbs) = 0 :=
    weight_word (isWord_number n.natAbs) (by simp [node, bracketKinds])
  have hminus : weight ("-" : Text) = 0 := by decide
  rw [Value.words]
  split <;> simp [nesting, hnumber, hminus]

/-- Each tuple takes one level of brackets. -/
theorem nesting_words (h : v.Readable) : nesting v.words ≤ v.nesting := by
  induction h with
  | nil => decide
  | bool b => cases b <;> decide
  | int => exact (nesting_int _).trans_le (Int.natCast_nonneg _)
  | @tuple items _ hitems ih =>
    have hparts : ∀ ws ∈ Value.wordsAll items, level ws = 0 ∧ nesting ws ≤ Value.nestingAll items := by
      rw [Value.wordsAll_eq]
      refine List.forall_mem_map.2 fun v hv => ⟨level_of_isElement (isElement_readable (hitems v hv)), ?_⟩
      exact (ih v hv).trans (Int.ofNat_le.2 (Value.nesting_le_nestingAll hv))
    obtain ⟨hlevel, hnesting⟩ := nesting_spread hparts
    have hopen : weight ("(" : Text) = 1 := by decide
    have hclose : weight (")" : Text) = -1 := by decide
    rw [Value.words, nesting, nesting_append, hlevel, hopen, Value.nesting]
    simp only [nesting, hclose]
    omega

end Tree

/-! ## The text of a value as words -/

namespace Scan

variable {v : Value} {ws : List Text} {text : Text}

/-- What may stand behind a value inside a tuple, or behind a whole one. -/
def Closing (text : Text) : Prop := ∀ r ∈ text.head?, r = ',' ∨ r = ')'

theorem closing_comma (text : Text) : Closing ((',' : Rune) :: text) := by simp [Closing]

theorem closing_paren (text : Text) : Closing ((')' : Rune) :: text) := by simp [Closing]

/-- A comma or a parenthesis ends every token but a comment. -/
theorem ends_closing {kind : Kind} (hcomment : kind.isComment = false) (w : Text) (h : Closing text) :
    Lexeme.Ends kind w text := by
  intro next hnext
  have hclass : Lexeme.continuesWord next = false ∧ next.isAsciiDigit = false ∧ next ≠ '.' ∧
      Lexeme.startsWord next = false ∧ next ≠ '/' := by
    rcases h next hnext with rfl | rfl <;> decide
  have hdoubles : ∀ d ∈ Lexeme.doubles, d.1.2 ≠ next := by
    rcases h next hnext with rfl | rfl <;> decide
  obtain ⟨hword, hdigit, hpoint, hstart, hslash⟩ := hclass
  exact ⟨fun _ => hword, fun _ => ⟨hdigit, hpoint, hstart⟩, by simp [hcomment],
    fun r _ => ⟨fun op hop => hdoubles _ hop rfl, fun hboth => hslash hboth.2⟩⟩

/-- A rune that starts no longer operator is a word by itself, whatever stands behind it. -/
theorem packed_single {r : Rune} {kind : Kind} (h : (r, kind) ∈ Lexeme.singles) (hr : r ≠ '/')
    (hdoubles : ∀ next ∈ text.head?, ∀ d ∈ Lexeme.doubles, d.1 ≠ (r, next)) (hp : Packed ws text) :
    Packed ([r] :: ws) (r :: text) := by
  have hkinds : ∀ s ∈ Lexeme.singles, s.2.isComment = false ∧ s.2 ≠ .ident ∧ s.2 ≠ .number := by decide
  obtain ⟨hcomment, hident, hnumber⟩ := hkinds _ h
  refine .word (.single h) hcomment (fun next hnext => ?_) hp
  refine ⟨fun hk => absurd hk hident, fun hk => absurd hk hnumber, by simp [hcomment], fun r' hr' => ?_⟩
  obtain rfl : r = r' := by simpa using hr'
  exact ⟨fun op hop => hdoubles next hnext _ hop rfl, fun hboth => hr hboth.1⟩

/-- The marks of tuples start no longer operator. -/
theorem packed_mark {r : Rune} {kind : Kind} (h : (r, kind) ∈ [(('(' : Rune), Kind.lpar), (')', .rpar), (',', .comma)])
    (hp : Packed ws text) : Packed ([r] :: ws) (r :: text) := by
  have hmarks : ∀ s ∈ [(('(' : Rune), Kind.lpar), (')', .rpar), (',', .comma)],
      s ∈ Lexeme.singles ∧ s.1 ≠ '/' ∧ ∀ d ∈ Lexeme.doubles, d.1.1 ≠ s.1 := by decide
  obtain ⟨hsingle, hslash, hdoubles⟩ := hmarks _ h
  exact packed_single hsingle hslash (fun _ _ d hd hpair => hdoubles d hd (congrArg Prod.fst hpair)) hp

theorem packed_name {w : Text} (hw : Lexeme.Spells .ident w) (hp : Packed ws text) (h : Closing text) :
    Packed (w :: ws) (w ++ text) :=
  .word hw rfl (ends_closing rfl w h) hp

theorem packed_int (n : Int) (hp : Packed ws text) (h : Closing text) :
    Packed ((Value.int n).words ++ ws) ((Value.int n).shown ++ text) := by
  have hdigits := Decimal.allDigits_ofNat n.natAbs
  have hnumber : Packed (Text.ofNat n.natAbs :: ws) (Text.ofNat n.natAbs ++ text) :=
    .word (Decimal.spells_of_digits hdigits (Decimal.ofNat_ne_nil _)) rfl (ends_closing rfl _ h) hp
  cases n with
  | ofNat n => exact hnumber
  | negSucc n =>
    -- a digit makes no longer operator of the minus
    have hminus : ∀ next ∈ (Text.ofNat (n + 1) ++ text).head?, ∀ d ∈ Lexeme.doubles, d.1 ≠ (('-' : Rune), next) := by
      intro next hnext d hd hpair
      have hequals : ∀ d ∈ Lexeme.doubles, d.1.1 = '-' → d.1.2 = '=' := by decide
      have hdigit : next.isAsciiDigit = true := by
        obtain ⟨r, more, hr⟩ := List.exists_cons_of_ne_nil (Decimal.ofNat_ne_nil (n + 1))
        rw [hr] at hnext
        obtain rfl : r = next := by simpa using hnext
        exact hdigits r (by simp [Int.natAbs, hr])
      obtain rfl : next = '=' := by simpa [hpair] using hequals d hd
      cases hdigit
    have hwords : (Value.int (.negSucc n)).words = [("-" : Text), Text.ofNat (n + 1)] := by
      rw [Value.words, if_pos (Int.negSucc_lt_zero n)]
      rfl
    rw [hwords]
    exact @packed_single _ _ '-' .minus (by decide) (by decide) hminus hnumber

/-- Values with commas between them are packed if each of them is. -/
theorem packed_values {vs : List Value}
    (hvs : ∀ v ∈ vs, ∀ {ws : List Text} {text : Text}, Packed ws text → Closing text →
      Packed (v.words ++ ws) (v.shown ++ text)) (hp : Packed ws text) (h : Closing text) :
    Packed (Text.spread (",": Text) (vs.map Value.words) ++ ws) (Text.join ", " (vs.map Value.shown) ++ text) := by
  induction vs with
  | nil => exact hp
  | cons v vs ih =>
    have hv := @hvs v (by simp)
    have hmore := ih fun w hw => hvs w (by simp [hw])
    cases vs with
    | nil => simpa [Text.spread, Text.join] using hv hp h
    | cons v' vs =>
      have hcomma := @packed_mark _ _ ',' .comma (by decide) (.blank hmore)
      have hjoin : Text.join ", " ((v :: v' :: vs).map Value.shown) ++ text =
          v.shown ++ (',' : Rune) :: (' ' : Rune) :: (Text.join ", " ((v' :: vs).map Value.shown) ++ text) := by
        rw [List.map_cons, List.map_cons, Text.join]
        · simp [Text.ofString]
        · simp
      have hspread : Text.spread (",": Text) ((v :: v' :: vs).map Value.words) ++ ws =
          v.words ++ ("," : Text) :: (Text.spread (",": Text) ((v' :: vs).map Value.words) ++ ws) := by
        simp [Text.spread]
      rw [hjoin, hspread]
      exact hv hcomma (closing_comma _)

/-- A value is shown as its words. -/
theorem packed_shown (hv : v.Readable) (hp : Packed ws text) (h : Closing text) :
    Packed (v.words ++ ws) (v.shown ++ text) := by
  induction hv generalizing ws text with
  | nil => exact packed_name (.word (by decide) (List.all_eq_true.1 (by decide))) hp h
  | bool b => cases b <;> exact packed_name (.word (by decide) (List.all_eq_true.1 (by decide))) hp h
  | int => exact packed_int _ hp h
  | @tuple items _ _ ih =>
    have hclose := @packed_mark _ _ ')' .rpar (by decide) hp
    have hitems := packed_values (fun v hv => @ih v hv) hclose (closing_paren _)
    have hopen := @packed_mark _ _ '(' .lpar (by decide) hitems
    rw [Value.words, Value.shown, Value.wordsAll_eq, Value.shownAll_map, List.cons_append, List.append_assoc,
      List.append_assoc, List.append_assoc]
    exact hopen

end Scan

/-! ## Running the tree of a value -/

/-- Limits that leave room for every value within the limit on brackets, and for the digits of every integer. -/
structure Limits.Ample (limits : Limits) : Prop where
  nodes : 2 * limits.brackets + 3 ≤ limits.nodes
  digits : 19 ≤ limits.digits

theorem Limits.ample_standard : Limits.standard.Ample := ⟨by decide, by decide⟩

namespace Literal

variable {limits : Limits} {pos : Position}

/-- The digits of an integer that fits are read as that integer. -/
theorem ofNumber_ofNat {n : Nat} (hdigits : 19 ≤ limits.digits) (hn : n ≤ 2 ^ 63 - 1) :
    ofNumber limits (Text.ofNat n) pos = .ok (.int n) := by
  have hall := Decimal.allDigits_ofNat n
  have hpoint : (Text.ofNat n).contains ('.' : Rune) = false := by
    rw [← Bool.not_eq_true, List.contains_iff_mem]
    intro hmem
    cases hall _ hmem
  have hlength : (Text.ofNat n).length ≤ 19 := Decimal.length_ofNat_le (by omega)
  have hlimit : ¬ limits.digits < (Text.ofNat n).length := by omega
  have hfits : Word.fits n = true := Word.fits_iff.2 (by omega)
  rw [ofNumber, hpoint, Decimal.readInt_digits limits.digits hall (Decimal.ofNat_ne_nil n), if_neg hlimit,
    Decimal.valueOf_ofNat]
  simp only [Bool.false_eq_true, if_false, hfits, if_true]

/-- The magnitude of the least integer does not fit, and is read as a double. -/
theorem ofNumber_least (hdigits : 19 ≤ limits.digits) :
    ofNumber limits "9223372036854775808" pos = .ok (.float (Float.ofScientific (2 ^ 63) false 0)) := by
  have hread : Decimal.readInt limits.digits "9223372036854775808" = .value 9223372036854775808 := by
    rw [Decimal.readInt_digits limits.digits (List.all_eq_true.1 (by decide)) (by decide), if_neg]
    · decide
    · rw [show (Text.ofString "9223372036854775808").length = 19 by decide]
      omega
  have hfloat : floatOf "9223372036854775808" pos = .ok (.float (Float.ofScientific (2 ^ 63) false 0)) := rfl
  have hpoint : (Text.ofString "9223372036854775808").contains ('.' : Rune) = false := by decide
  have hfits : Word.fits 9223372036854775808 = false := by decide
  rw [ofNumber, hread, hpoint]
  simp only [Bool.false_eq_true, if_false, hfits, hfloat]

end Literal

/-- A node has code within a depth, and the code gives a value wherever it is run and changes nothing. -/
def Computes (limits : Limits) (depth : Nat) (n : Node) (v : Value) : Prop :=
  ∀ top, ∃ code, Code.compileAt limits top depth n = .ok code ∧
    ∀ call scope m, Eval.exec (Eval.evaluate limits call scope code) m = (.ok v, m)

section Computes

variable {limits : Limits} {depth : Nat} {n : Node} {v : Value}

theorem computes_literal {l : Literal} (h : ∀ top, Code.compileAt limits top depth n = .ok (.literal l)) :
    Computes limits depth n l.value := fun top =>
  ⟨.literal l, h top, fun call scope m => by rw [Eval.evaluate]; rfl⟩

theorem computes_negate {c : Node} {v w : Value} (hk : n.kind = .neg) (hc : n.children = [c]) (h : Computes limits depth c v)
    (hv : v.isFlow = false) (hw : ∀ m, Eval.exec (Eval.negate n.pos v) m = (.ok w, m)) :
    Computes limits (depth + 1) n w := by
  intro top
  obtain ⟨code, hcode, heval⟩ := h top
  refine ⟨.negate n.pos code, ?_, fun call scope m => ?_⟩
  · rw [Code.compileAt]
    simp only [hk, Code.one, hc]
    show (do return Code.negate n.pos (← Code.compileAt limits top depth c) : Except Fault Code) = _
    rw [hcode]
    rfl
  · rw [Eval.evaluate, Eval.exec_andThen, heval]
    simp [hv, hw]

/-- Nodes that compute values one by one compute them all. -/
theorem computes_all {ns : List Node} {vs : List Value} (h : List.Forall₂ (Computes limits depth) ns vs)
    (hvs : ∀ v ∈ vs, v.isFlow = false) (top : Position) :
    ∃ codes, ns.mapM (Code.compileAt limits top depth) = .ok codes ∧
      ∀ call scope m, Eval.exec (Eval.evaluateAll limits call scope codes) m = (.ok (.ok vs), m) := by
  induction h with
  | nil => exact ⟨[], rfl, fun call scope m => by rw [Eval.evaluateAll]; rfl⟩
  | @cons n v ns vs hn _ ih =>
    obtain ⟨code, hcode, heval⟩ := hn top
    obtain ⟨codes, hcodes, hevals⟩ := ih fun w hw => hvs w (by simp [hw])
    refine ⟨code :: codes, ?_, fun call scope m => ?_⟩
    · rw [List.mapM_cons, hcode, hcodes]
      rfl
    · rw [Eval.evaluateAll, Eval.exec_bind, heval]
      simp only [hvs v (by simp), Bool.false_eq_true, if_false]
      rw [Eval.exec_bind, hevals]
      rfl

theorem computes_empty (hk : n.kind = .lpar) (hc : n.children = []) : Computes limits (depth + 1) n (.tuple []) := by
  refine fun top => ⟨.tuple [], ?_, fun call scope m => by rw [Eval.evaluate, Eval.evaluateAll]; rfl⟩
  rw [Code.compileAt]
  simp only [hk, hc]
  rfl

/-- A comma list in a parenthesis computes the tuple of what its elements compute. -/
theorem computes_tuple {c : Node} {vs : List Value} (hk : n.kind = .lpar) (hc : n.children = [c])
    (hkc : c.kind = .comma) (h : List.Forall₂ (Computes limits depth) c.children vs)
    (hvs : ∀ v ∈ vs, v.isFlow = false) : Computes limits (depth + 2) n (.tuple vs) := by
  intro top
  obtain ⟨codes, hcodes, hevals⟩ := computes_all h hvs top
  refine ⟨.tuple codes, ?_, fun call scope m => ?_⟩
  · rw [Code.compileAt]
    simp only [hk, hc]
    rw [Code.compileAt]
    simp only [hkc]
    rw [hcodes]
    rfl
  · rw [Eval.evaluate, Eval.exec_bind, hevals]
    rfl

theorem computes_number {k : Nat} (hdigits : 19 ≤ limits.digits) (h : k ≤ 2 ^ 63 - 1) (hk : n.kind = .number)
    (ht : n.text = Text.ofNat k) : Computes limits (depth + 1) n (.int k) := by
  refine computes_literal (l := .int k) fun top => ?_
  rw [Code.compileAt]
  simp only [hk, ht]
  rw [Literal.ofNumber_ofNat hdigits h]
  rfl

/-- Nodes that are the same but for positions have the same kind and text, and children that are the same but for
positions. -/
theorem alike_node {kind : Kind} {text : Text} {children : List Node}
    (h : n.relocate .nowhere = (Value.node kind text children).relocate .nowhere) :
    n.kind = kind ∧ n.text = text ∧ Tree.Alike n.children children := by
  have hkind := congrArg Node.kind h
  have htext := congrArg Node.text h
  have hchildren := congrArg Node.children h
  simp only [Node.relocate_kind, Node.relocate_text, Node.relocate_children] at hkind htext hchildren
  exact ⟨hkind, htext, hchildren⟩

/-- What holds of the tree of each value, wherever it stands, holds of nodes that are those trees. -/
theorem forall₂_of_alike {R : Node → Value → Prop} {ns : List Node} {vs : List Value} (h : Tree.Alike ns (vs.map Value.tree))
    (hR : ∀ v ∈ vs, ∀ n, n.relocate .nowhere = v.tree.relocate .nowhere → R n v) : List.Forall₂ R ns vs := by
  induction vs generalizing ns with
  | nil =>
    obtain rfl := List.map_eq_nil_iff.1 h
    exact .nil
  | cons v vs ih =>
    obtain ⟨n, ns, rfl, hn, hns⟩ := h.uncons
    exact .cons (hR v (by simp) n hn) (ih hns fun w hw => hR w (by simp [hw]))

theorem computes_int {k : Int} (hdigits : 19 ≤ limits.digits) (hleast : -(2 ^ 63 - 1) ≤ k) (hgreatest : k ≤ 2 ^ 63 - 1)
    (h : n.relocate .nowhere = (Value.int k).tree.relocate .nowhere) : Computes limits (depth + 2) n (.int k) := by
  rw [Value.tree] at h
  split at h
  · rename_i hneg
    obtain ⟨hk, -, hchildren⟩ := alike_node h
    obtain ⟨c, _, hc, hnumber, hnil⟩ := hchildren.uncons
    obtain rfl := List.map_eq_nil_iff.1 hnil
    obtain ⟨hkc, htc, -⟩ := alike_node hnumber
    have hwrap : Word.wrap (-(k.natAbs : Int)) = k := by
      rw [show -(k.natAbs : Int) = k by omega, Word.wrap_of_fits (Word.fits_iff.2 (by omega))]
    refine computes_negate hk hc (computes_number hdigits (by omega) hkc htc) rfl fun m => ?_
    rw [Eval.negate, hwrap]
    rfl
  · rename_i hneg
    obtain ⟨hk, ht, -⟩ := alike_node h
    have hcomputes := @computes_number limits (depth + 1) n k.natAbs hdigits (by omega) hk ht
    rwa [Int.natAbs_of_nonneg (by omega)] at hcomputes

/-- The node of the least integer computes a double. -/
theorem computes_least (hdigits : 19 ≤ limits.digits)
    (h : n.relocate .nowhere = (Value.int Word.least).tree.relocate .nowhere) :
    Computes limits (depth + 2) n (.float (Decimal.floatOfInt Word.least)) := by
  rw [Value.tree, if_pos (by decide)] at h
  obtain ⟨hk, -, hchildren⟩ := alike_node h
  obtain ⟨c, _, hc, hnumber, hnil⟩ := hchildren.uncons
  obtain rfl := List.map_eq_nil_iff.1 hnil
  obtain ⟨hkc, htc, -⟩ := alike_node hnumber
  have htext : Text.ofNat Word.least.natAbs = "9223372036854775808" := by decide +kernel
  have hcomputes : Computes limits (depth + 1) c (Literal.float (Float.ofScientific (2 ^ 63) false 0)).value := by
    refine computes_literal fun top => ?_
    rw [Code.compileAt]
    simp only [hkc, htc, htext]
    rw [Literal.ofNumber_least hdigits]
    rfl
  exact computes_negate hk hc hcomputes rfl fun m => rfl

theorem computes_name {l : Literal} {w : Text} (hl : Literal.ofName? w = some l)
    (h : n.relocate .nowhere = (Value.node .ident w []).relocate .nowhere) : Computes limits (depth + 1) n l.value := by
  obtain ⟨hk, ht, -⟩ := alike_node h
  refine computes_literal fun top => ?_
  rw [Code.compileAt]
  simp only [hk, ht, hl]
  rfl

/-- A node that is the tree of a value, wherever it stands, computes the value. -/
theorem computes_readable (hdigits : 19 ≤ limits.digits) (h : v.Readable) :
    ∀ {n : Node} {depth : Nat}, n.relocate .nowhere = v.tree.relocate .nowhere → 2 * v.nesting + 2 ≤ depth →
      Computes limits depth n v := by
  induction h with
  | nil =>
    intro n depth h hdepth
    obtain ⟨depth, rfl⟩ := Nat.exists_eq_add_of_le' hdepth
    exact computes_name rfl h
  | bool b =>
    intro n depth h hdepth
    obtain ⟨depth, rfl⟩ := Nat.exists_eq_add_of_le' hdepth
    cases b <;> exact computes_name rfl h
  | int hleast hgreatest =>
    intro n depth h hdepth
    obtain ⟨depth, rfl⟩ := Nat.exists_eq_add_of_le' hdepth
    exact computes_int hdigits hleast hgreatest h
  | @tuple items hlength hitems ih =>
    intro n depth h hdepth
    rw [Value.nesting] at hdepth
    cases items with
    | nil =>
      rw [Value.tree] at h
      obtain ⟨hk, -, hchildren⟩ := alike_node h
      obtain ⟨depth, rfl⟩ := Nat.exists_eq_add_of_le' hdepth
      exact computes_empty hk (List.map_eq_nil_iff.1 hchildren)
    | cons v vs =>
      rw [Value.tree] at h
      obtain ⟨hk, -, hchildren⟩ := alike_node h
      obtain ⟨c, _, hc, hcomma, hnil⟩ := hchildren.uncons
      obtain rfl := List.map_eq_nil_iff.1 hnil
      obtain ⟨hkc, -, helements⟩ := alike_node hcomma
      obtain ⟨depth, rfl⟩ : ∃ d, depth = d + 2 := ⟨depth - 2, by omega⟩
      refine computes_tuple hk hc hkc ?_ fun w hw => (hitems w hw).isFlow
      rw [Value.treeAll_eq, ← List.map_cons] at helements
      refine forall₂_of_alike helements fun w hw m hm => ih w hw hm ?_
      have hnesting := Value.nesting_le_nestingAll hw
      omega

end Computes

/-! ## Reading back -/

variable {limits : Limits} {source text : Text}

/-- A source of packed words that are read as an operand runs to what the operand computes. -/
theorem run_of_element {ws : List Text} {t : Node} {v : Value} (he : Tree.IsElement ws t) (hp : Scan.Packed ws text)
    (hdepth : Node.nesting ws ≤ limits.brackets) (hnodes : 1 ≤ limits.nodes) (hv : v.isFlow = false)
    (h : ∀ n, n.relocate .nowhere = t.relocate .nowhere → Computes limits (limits.nodes - 1) n v)
    (scope : ScopeId) (m : Machine) :
    (run limits source text scope m).result = .ok (.tuple [.bool true, v]) ∧
      (run limits source text scope m).machine = m := by
  obtain ⟨s, hs, htiers, hinline⟩ := he
  obtain ⟨ns, hns, hparse⟩ := Tree.parse_packed hs (.last hinline (Tree.derives_of_tiers htiers)) hdepth hp source
  obtain ⟨n, ns', rfl, hn, hnil⟩ := Tree.Alike.uncons hns
  obtain rfl := List.map_eq_nil_iff.1 hnil
  have hroot := congrArg Tree.Built.result hparse
  obtain ⟨code, hcode, heval⟩ := h n hn (.start source)
  have hcompile : Program.compile limits ((Tree.root source).into .lbrace "\x7b" [n]) =
      .ok ⟨(Tree.root source).into .lbrace "\x7b" [n], .block [code]⟩ := by
    refine Program.compile_of_block rfl (show limits.nodes = limits.nodes - 1 + 1 by omega) ?_
    show [n].mapM (Code.compileAt limits (.start source) (limits.nodes - 1)) = _
    rw [List.mapM_cons, hcode]
    rfl
  have hinvoke : (⟨(Tree.root source).into .lbrace "\x7b" [n], .block [code]⟩ : Program).invoke limits scope m =
      (.ok (.tuple [.bool true, v]), m) := by
    rw [Program.invoke_block rfl]
    refine Program.finish_of_ok ?_ _
    rw [Eval.evaluateBlock, Eval.exec_andThen, heval]
    simp only [hv, Bool.false_eq_true, if_false]
    rw [Eval.evaluateBlock]
    rfl
  obtain ⟨hresult, hmachine⟩ := run_of_compile hroot hcompile scope m
  rw [hresult, hmachine, hinvoke]
  exact ⟨rfl, rfl⟩

theorem run_shown_readable (hlimits : limits.Ample) {v : Value} (h : v.Readable) (hnesting : v.nesting ≤ limits.brackets)
    (scope : ScopeId) (m : Machine) :
    (run limits source v.shown scope m).result = .ok (.tuple [.bool true, v]) ∧
      (run limits source v.shown scope m).machine = m := by
  have hpacked := Scan.packed_shown h .nil (by simp [Scan.Closing])
  have hnodes := hlimits.nodes
  rw [List.append_nil, List.append_nil] at hpacked
  refine run_of_element (Tree.isElement_readable h) hpacked ?_ (by omega) h.isFlow (fun n hn => ?_) scope m
  · exact (Tree.nesting_words h).trans (Int.ofNat_le.2 hnesting)
  · exact computes_readable hlimits.digits h hn (by omega)

theorem run_shown_least (hlimits : limits.Ample) (scope : ScopeId) (m : Machine) :
    (run limits source (Value.int Word.least).shown scope m).result =
        .ok (.tuple [.bool true, .float (Decimal.floatOfInt Word.least)]) ∧
      (run limits source (Value.int Word.least).shown scope m).machine = m := by
  have hpacked := Scan.packed_int Word.least .nil (by simp [Scan.Closing])
  have hnodes := hlimits.nodes
  rw [List.append_nil, List.append_nil] at hpacked
  refine run_of_element (Tree.isElement_int Word.least) hpacked ?_ (by omega) rfl (fun n hn => ?_) scope m
  · exact (Tree.nesting_int _).trans_le (Int.natCast_nonneg _)
  · rw [show limits.nodes - 1 = limits.nodes - 3 + 2 by omega]
    exact computes_least hlimits.digits hn

/-- Values are read back as they are shown. Every value of nil, truth values, integers of a magnitude below `2 ^ 63` and
tuples of such values, nested within the limit on brackets, is shown as a source that gives the value again, in whatever
scope of whatever machine it is run, and changes nothing. Of the integers of 64 bits only the least one is not read
back as itself: its magnitude is read as a double. -/
theorem shown_values_read_back {limits : Limits} (hlimits : limits.Ample) (source : Text) (scope : ScopeId) (m : Machine) :
    (∀ v : Value, v.Readable → v.nesting ≤ limits.brackets →
      (run limits source v.shown scope m).result = .ok (.tuple [.bool true, v]) ∧
        (run limits source v.shown scope m).machine = m) ∧
    (∀ n, Word.fits n = true →
      ((run limits source (Value.int n).shown scope m).result = .ok (.tuple [.bool true, .int n]) ↔ n ≠ Word.least)) ∧
    (run limits source (Value.int Word.least).shown scope m).result =
      .ok (.tuple [.bool true, .float (Decimal.floatOfInt Word.least)]) := by
  refine ⟨fun v hv hnesting => run_shown_readable hlimits hv hnesting scope m, fun n hn => ⟨?_, fun hne => ?_⟩,
    (run_shown_least hlimits scope m).1⟩
  · rintro h rfl
    rw [(run_shown_least hlimits scope m).1] at h
    simp at h
  · obtain ⟨hleast, hgreatest⟩ := Word.fits_iff.1 hn
    have hreadable : (Value.int n).Readable := .int (by simp only [Word.least] at hne; omega) hgreatest
    exact (run_shown_readable hlimits hreadable (Nat.zero_le _) scope m).1

/-- A pair of an empty tuple and a pair with a negative integer is shown as a source and read back, as is the greatest
integer, and minus that. -/
theorem shown_values_read_back_nested :
    let v : Value := .tuple [.tuple [], .tuple [.int (-9223372036854775807), .nil, .int 9223372036854775807]]
    Limits.standard.Ample ∧ v.Readable ∧ v.nesting ≤ Limits.standard.brackets ∧
      v.shown = "((), (-9223372036854775807, nil, 9223372036854775807))" ∧
      (run .standard [] v.shown Store.root .initial).result = .ok (.tuple [.bool true, v]) ∧
      Word.fits (-5) = true ∧
      (run .standard [] (Value.int (-5)).shown Store.root .initial).result = .ok (.tuple [.bool true, .int (-5)]) := by
  intro v
  have hinner : (Value.tuple [.int (-9223372036854775807), .nil, .int 9223372036854775807]).Readable := by
    refine .tuple (by decide) ?_
    simpa using ⟨Value.Readable.int (by decide) (by decide), Value.Readable.nil, Value.Readable.int (by decide) (by decide)⟩
  have hv : v.Readable := by
    refine .tuple (by decide) ?_
    simpa using ⟨Value.Readable.tuple (by decide) (by simp), hinner⟩
  obtain ⟨hvalues, hints, -⟩ := shown_values_read_back Limits.ample_standard [] Store.root .initial
  exact ⟨Limits.ample_standard, hv, by decide, by decide +kernel, (hvalues v hv (by decide)).1, by decide,
    (hints (-5) (by decide)).2 (by decide)⟩

end Kettle
