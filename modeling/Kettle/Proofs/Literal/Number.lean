/-
Reading the numbers of a source. The text of a number token is a row of ASCII digits, or two rows with a
point between them of which the second may be empty. Such a text always spells a double, and without a
point an integer, unless it has more digits than an integer may have.
-/
import Kettle.Literal.Number
import Kettle.Proofs.Token.Longest
import Mathlib.Algebra.Group.Nat.Defs

namespace Kettle

namespace Decimal

variable {r : Rune} {t whole fraction rest : Text}

/-! ## Digits -/

/-- A row of ASCII digits. -/
def AllDigits (t : Text) : Prop := ∀ r ∈ t, r.isAsciiDigit = true

theorem isAsciiDigit_iff : r.isAsciiDigit = true ↔ 0x30 ≤ r.val ∧ r.val ≤ 0x39 := by
  simp [Rune.isAsciiDigit]

theorem decimal?_of_digit (h : r.isAsciiDigit = true) : r.decimal? = some (r.val - 0x30) := by
  have hval := isAsciiDigit_iff.1 h
  unfold Rune.decimal?
  rw [if_pos (by omega), if_pos h]

theorem isMargin_of_digit (h : r.isAsciiDigit = true) : isMargin r = false := by
  have hval := isAsciiDigit_iff.1 h
  unfold isMargin
  rw [if_pos (by omega)]
  simp only [Bool.or_eq_false_iff, Bool.and_eq_false_iff, decide_eq_false_iff_not]
  omega

theorem isMargin_of_inNumber (h : Lexeme.inNumber r = true) : isMargin r = false := by
  rcases Bool.or_eq_true_iff.1 h with h | h
  · exact isMargin_of_digit h
  · obtain rfl : r = '.' := by simpa using h
    decide

/-- What stands after the digits of a number: nothing, or its point. -/
def Stops (rest : Text) : Prop := ∀ r ∈ rest.head?, r = '.'

theorem digitRun_digits (h : AllDigits t) (hrest : Stops rest) :
    digitRun (t ++ rest) = (t.map fun r => r.val - 0x30, rest) := by
  induction t with
  | nil =>
    cases rest with
    | nil => rfl
    | cons r rest =>
      obtain rfl : r = '.' := hrest r rfl
      rw [List.nil_append, digitRun, show Rune.decimal? ('.' : Rune) = none by decide]
      rfl
  | cons r t ih =>
    have hr : r.isAsciiDigit = true := h r (by simp)
    rw [List.cons_append, digitRun, decimal?_of_digit hr, ih fun c hc => h c (by simp [hc])]
    rfl

theorem leadingDigits_digits (h : AllDigits t) (hrest : Stops rest) :
    leadingDigits (t ++ rest) = (t.map fun r => r.val - 0x30, rest) := by
  cases t with
  | nil =>
    cases rest with
    | nil => rfl
    | cons r rest =>
      obtain rfl : r = '.' := hrest r rfl
      rw [leadingDigits, if_neg (by simp [startsWithDigit, show Rune.decimal? ('.' : Rune) = none by decide])]
      rfl
  | cons r t =>
    have hr : r.isAsciiDigit = true := h r (by simp)
    rw [leadingDigits, if_pos (by simp [startsWithDigit, decimal?_of_digit hr]), digitRun_digits h hrest]

theorem sign_digit (h : r.isAsciiDigit = true) (t : Text) : sign (r :: t) = (false, r :: t) := by
  have hminus : r ≠ '-' := Lexeme.ne_of_class h (by decide)
  have hplus : r ≠ '+' := Lexeme.ne_of_class h (by decide)
  simp [sign, hminus, hplus]

/-! ## The texts of numbers -/

/-- The text of a number without a point, and the text of one with a point. -/
theorem numeral_cases (h : Lexeme.Spells .number t) :
    (AllDigits t ∧ t ≠ []) ∨
      ∃ whole fraction, t = whole ++ ('.' : Rune) :: fraction ∧ AllDigits whole ∧ whole ≠ [] ∧ AllDigits fraction := by
  obtain ⟨r, more, rfl, hr, hmore, hpoint⟩ := h.of_number
  have hdigit : ∀ c ∈ more, c ≠ '.' → c.isAsciiDigit = true := fun c hc hne => by
    simpa [Lexeme.inNumber, hne] using hmore c hc
  by_cases hmem : ('.' : Rune) ∈ more
  · obtain ⟨before, after, hsplit, hbefore⟩ := List.eq_append_cons_of_mem hmem
    -- the first point is the only one
    have hafter : ('.' : Rune) ∉ after := by
      rw [hsplit, List.count_append, List.count_cons_self] at hpoint
      exact List.count_eq_zero.1 (by omega)
    refine .inr ⟨r :: before, after, by rw [hsplit]; rfl, ?_, by simp, ?_⟩
    · exact List.forall_mem_cons.2 ⟨hr, fun c hc => hdigit c (by simp [hsplit, hc]) fun he => hbefore (he ▸ hc)⟩
    · exact fun c hc => hdigit c (by simp [hsplit, hc]) fun he => hafter (he ▸ hc)
  · refine .inl ⟨List.forall_mem_cons.2 ⟨hr, fun c hc => ?_⟩, by simp⟩
    exact hdigit c hc fun he => hmem (he ▸ hc)

theorem dropWhile_margin (h : ∀ c ∈ t, isMargin c = false) : t.dropWhile isMargin = t := by
  cases t with
  | nil => rfl
  | cons r t => rw [List.dropWhile_cons, if_neg (by simp [h r (by simp)])]

/-- No blanks surround the digits of a number. -/
theorem trim_number (h : ∀ c ∈ t, Lexeme.inNumber c = true) :
    ((skipMargin t).reverse.dropWhile isMargin).reverse = t := by
  have hmargin : ∀ c ∈ t, isMargin c = false := fun c hc => isMargin_of_inNumber (h c hc)
  rw [skipMargin, dropWhile_margin hmargin, dropWhile_margin fun c hc => hmargin c (by simpa using hc)]
  exact List.reverse_reverse t

theorem inNumber_of_digits (h : AllDigits t) : ∀ c ∈ t, Lexeme.inNumber c = true := fun c hc => by
  simp [Lexeme.inNumber, h c hc]

theorem spells_of_digits (h : AllDigits t) (hne : t ≠ []) : Lexeme.Spells .number t := by
  obtain ⟨r, more, rfl⟩ := List.exists_cons_of_ne_nil hne
  have hmore : AllDigits more := fun c hc => h c (by simp [hc])
  refine .number (h r (by simp)) (inNumber_of_digits hmore) ?_
  rw [List.count_eq_zero_of_not_mem fun hpoint => by cases hmore _ hpoint]
  exact Nat.zero_le 1

/-- A row of digits, with or without a point and a row of digits after it, spells a double. -/
theorem readFloat?_digits (hw : AllDigits whole) (hne : whole ≠ []) (hrest : Stops rest) (hf : AllDigits rest.tail) :
    (readFloat? (whole ++ rest)).isSome := by
  obtain ⟨r, more, rfl⟩ := List.exists_cons_of_ne_nil hne
  have hnumber : ∀ c ∈ (r :: more) ++ rest, Lexeme.inNumber c = true := by
    intro c hc
    rcases List.mem_append.1 hc with hc | hc
    · exact inNumber_of_digits hw c hc
    · cases rest with
      | nil => cases hc
      | cons p fraction =>
        rcases List.mem_cons.1 hc with rfl | hc
        · simp [Lexeme.inNumber, hrest c rfl]
        · exact inNumber_of_digits hf c hc
  have hwhole := leadingDigits_digits hw hrest
  have hfraction : (fractionPart rest).2 = [] := by
    cases rest with
    | nil => rfl
    | cons p fraction =>
      obtain rfl : p = '.' := hrest p rfl
      have hdigits := leadingDigits_digits hf (by simp [Stops] : Stops [])
      rw [List.append_nil] at hdigits
      rw [fractionPart, if_pos rfl]
      exact congrArg Prod.snd hdigits
  unfold readFloat?
  rw [trim_number hnumber, List.cons_append, sign_digit (hw r (by simp)), ← List.cons_append]
  simp only [hwhole]
  rcases hfr : fractionPart rest with ⟨ds, after⟩
  obtain rfl : after = [] := by rw [hfr] at hfraction; exact hfraction
  simp [exponentPart]

/-- The text of a number token spells a double. -/
theorem readFloat?_of_spells (h : Lexeme.Spells .number t) : ∃ x, readFloat? t = some x := by
  rw [← Option.isSome_iff_exists]
  rcases numeral_cases h with ⟨hdigits, hne⟩ | ⟨whole, fraction, rfl, hwhole, hne, hfraction⟩
  · have hsome : (readFloat? (t ++ [])).isSome := readFloat?_digits hdigits hne (by simp [Stops]) (by simp [AllDigits])
    rwa [List.append_nil] at hsome
  · exact readFloat?_digits hwhole hne (by simp [Stops]) hfraction

/-- A row of digits spells an integer, unless it is too long. -/
theorem readInt_digits (limit : Nat) (h : AllDigits t) (hne : t ≠ []) :
    readInt limit t = if limit < t.length then .tooLong t.length
      else .value (valueOf (t.map fun r => r.val - 0x30)) := by
  obtain ⟨r, more, rfl⟩ := List.exists_cons_of_ne_nil hne
  have hmargin : skipMargin (r :: more) = r :: more :=
    dropWhile_margin fun c hc => isMargin_of_digit (h c hc)
  have hdigits := leadingDigits_digits h (by simp [Stops] : Stops [])
  rw [List.append_nil] at hdigits
  unfold readInt
  rw [hmargin, sign_digit (h r (by simp))]
  simp [hdigits, skipMargin]

theorem readInt_tooLong {limit digits : Nat} (h : readInt limit t = .tooLong digits) : limit < digits := by
  unfold readInt at h
  dsimp only at h
  split at h
  · cases h
  · split at h
    · cases h
      assumption
    · split at h <;> cases h

/-! ## Numbers as they are written -/

theorem ofNat_ne_nil (n : Nat) : Text.ofNat n ≠ [] := by
  rw [Text.ofNat]
  split <;> simp

theorem allDigits_ofNat (n : Nat) : AllDigits (Text.ofNat n) := by
  have hdigit : ∀ k, (Text.digit k).isAsciiDigit = true := by
    intro k
    rw [isAsciiDigit_iff]
    simp only [Text.digit]
    omega
  induction n using Text.ofNat_induct with
  | single n _ => exact List.forall_mem_singleton.2 (hdigit n)
  | more n _ ih => exact List.forall_mem_append.2 ⟨ih, List.forall_mem_singleton.2 (hdigit n)⟩

theorem valueOf_concat (ds : List Nat) (d : Nat) : valueOf (ds ++ [d]) = valueOf ds * 10 + d := by
  simp [valueOf]

/-- A number that is written is read again. -/
theorem valueOf_ofNat (n : Nat) : valueOf ((Text.ofNat n).map fun r => r.val - 0x30) = n := by
  have hdigit : ∀ k, (Text.digit k).val - 0x30 = k % 10 := by
    intro k
    simp only [Text.digit]
    omega
  induction n using Text.ofNat_induct with
  | single n hn =>
    rw [List.map_singleton, hdigit, ← List.nil_append [n % 10], valueOf_concat, valueOf, List.foldl_nil]
    omega
  | more n _ ih =>
    rw [List.map_append, List.map_singleton, hdigit, valueOf_concat, ih]
    omega

theorem length_ofNat_le {n : Nat} : ∀ {k : Nat}, n < 10 ^ (k + 1) → (Text.ofNat n).length ≤ k + 1 := by
  induction n using Text.ofNat_induct with
  | single n _ => exact fun _ => by simp
  | more n hn ih =>
    intro k hk
    cases k with
    | zero => omega
    | succ k =>
      have hlength := @ih k (by rw [Nat.pow_succ] at hk; omega)
      rw [List.length_append, List.length_singleton]
      omega

end Decimal

namespace Literal

/-- A number token is a literal, unless it has no point and more digits than an integer may have. -/
theorem ofNumber_of_spells (limits : Limits) {text : Text} (pos : Position) (h : Lexeme.Spells .number text) :
    (∃ l, ofNumber limits text pos = .ok l) ∨
      ofNumber limits text pos = .error (.numeral (.tooLong limits.digits text.length)) := by
  obtain ⟨x, hx⟩ := Decimal.readFloat?_of_spells h
  have hfloat : floatOf text pos = .ok (.float x) := by rw [floatOf, hx]
  unfold ofNumber
  split
  · exact .inl ⟨_, hfloat⟩
  · rename_i hpoint
    rcases Decimal.numeral_cases h with ⟨hdigits, hne⟩ | ⟨whole, fraction, rfl, -⟩
    · rw [Decimal.readInt_digits limits.digits hdigits hne]
      by_cases hlong : limits.digits < text.length
      · rw [if_pos hlong]
        exact .inr rfl
      · rw [if_neg hlong]
        dsimp only
        split
        · exact .inl ⟨_, rfl⟩
        · exact .inl ⟨_, hfloat⟩
    · exact absurd (by simp) hpoint

/-- A number token without a literal has no point, and more digits than an integer may have. -/
theorem ofNumber_error {limits : Limits} {text : Text} {pos : Position} {f : Fault} (h : Lexeme.Spells .number text)
    (hf : ofNumber limits text pos = .error f) :
    text.contains ('.' : Rune) = false ∧ limits.digits < text.length ∧
      f = .numeral (.tooLong limits.digits text.length) := by
  rcases ofNumber_of_spells limits pos h with ⟨l, hl⟩ | hlong
  · cases hl.symm.trans hf
  · have hfault := Except.error.inj (hf.symm.trans hlong)
    unfold ofNumber at hlong
    split at hlong
    · unfold floatOf at hlong
      split at hlong <;> cases hlong
    · rename_i hpoint
      refine ⟨by simpa using hpoint, ?_, hfault⟩
      split at hlong
      · cases hlong
      · rename_i digits hread
        obtain ⟨-, rfl⟩ := NumeralCause.tooLong.inj (Fault.numeral.inj (Except.error.inj hlong))
        exact Decimal.readInt_tooLong hread
      · split at hlong
        · cases hlong
        · unfold floatOf at hlong
          split at hlong <;> cases hlong

end Literal

end Kettle
