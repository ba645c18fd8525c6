/-
Commands and programs. Whether an entry is a command is told by its first rune that is no blank, before the entry is
scanned. The blanks and the invisible runes that are skipped on the way to it are never part of a token, so it is the
first rune of the first token: an entry is taken for a command exactly if that token is an operator with a slash, or
a comment that starts with two of them. A program can start with such a comment, and it is then not run.
-/
import Kettle.Proofs.Eval.Invariant
import Kettle.Proofs.Session.Cleaning
import Kettle.Proofs.Session.Highlight
import Kettle.Session

namespace Kettle

namespace Lexeme

variable {kind : Kind} {r : Rune} {more : Text}

/-- The kinds of the tokens that start with a slash. -/
def slashed : List Kind := [.slash, .slashEq, .slashComment]

theorem Spells.mem_slashed_iff (h : Spells kind (r :: more)) : kind ∈ slashed ↔ r = '/' := by
  have hsingles : ∀ s ∈ singles, s.2 ∈ slashed ↔ s.1 = '/' := by decide
  have hdoubles : ∀ d ∈ doubles, d.2 ∈ slashed ↔ d.1.1 = '/' := by decide
  cases h with
  | word hr => exact iff_of_false (by decide) (ne_of_class hr (by decide))
  | number hr => exact iff_of_false (by decide) (ne_of_class hr (by decide))
  | @string quote => cases quote <;> decide
  | hash => decide
  | slash => decide
  | single h => exact hsingles _ h
  | double h => exact hdoubles _ h

theorem Spells.of_slashComment {text : Text} (h : Spells .slashComment text) :
    ∃ more, text = ('/' : Rune) :: ('/' : Rune) :: more := by
  have hsingles : ∀ s ∈ singles, s.2 ≠ .slashComment := by decide
  have hdoubles : ∀ d ∈ doubles, d.2 ≠ .slashComment := by decide
  generalize hkind : Kind.slashComment = kind at h
  cases h with
  | @slash more => exact ⟨more, rfl⟩
  | @string quote => cases quote <;> cases hkind
  | single h => exact absurd hkind.symm (hsingles _ h)
  | double h => exact absurd hkind.symm (hdoubles _ h)
  | _ => cases hkind

end Lexeme

/-! ## The first token of an entry -/

variable {source text typed entry w : Text} {t : Token}

/-- Nothing but blanks comes before the first token of a text, and it is not a line break. -/
theorem Scan.first_token (h : (scan source text).tokens.head? = some t) :
    ∃ gap rest, text = gap ++ (t.text ++ rest) ∧ (∀ r ∈ gap, Lexeme.isSpace r = true) ∧
      Lexeme.Spells t.kind t.text := by
  obtain ⟨pieces, tail, rest, hlayout, hfollows⟩ := scanFrom_layout source text .start none [] (dropped_nil _)
  have htokens : (scan source text).tokens = Piece.tokens pieces := hfollows.tokens_eq
  cases pieces with
  | nil => simp [htokens, Piece.tokens] at h
  | cons p pieces =>
    obtain rfl : p.token = t := by simpa [htokens] using h
    refine ⟨p.gap, Piece.weave pieces ++ (tail ++ rest), by simpa using hlayout.text_eq, ?_, ?_⟩
    · exact fun r hr => (hlayout.gaps [] p pieces rfl r hr).1
    · have hstands := hlayout.stands [] p pieces rfl
      generalize p.token = t at hstands
      cases hstands with
      | lexeme htaken => exact htaken.spells
      | lineBreak _ hlast => cases hlast

namespace Entry

/-- Without its invisible runes an entry starts with its first token all the same, blanks aside. -/
theorem trimLeft_cleaned (h : (scan source typed).tokens.head? = some t) :
    ∃ r more rest, Lexeme.Spells t.kind t.text ∧ t.text = r :: more ∧ r.isBlank = false ∧
      Text.trimLeft (cleaned typed) = r :: (cleaned more ++ rest) := by
  obtain ⟨gap, rest, rfl, hgap, hspells⟩ := Scan.first_token h
  obtain ⟨r, more, htext⟩ := List.exists_cons_of_ne_nil hspells.ne_nil
  have hhead : Lexeme.Spells t.kind (r :: more) := htext ▸ hspells
  refine ⟨r, more, cleaned rest, hspells, htext, hhead.isBlank_head, ?_⟩
  have hspaces : ∀ c ∈ cleaned gap, Lexeme.isSpace c = true := fun c hc => hgap c (List.mem_of_mem_filter hc)
  rw [cleaned_append, Highlight.trimLeft_spaces hspaces, htext, List.cons_append,
    cleaned_visible (isInvisible_head hhead), cleaned_append, Text.trimLeft,
    List.dropWhile_cons_of_neg (by simp [hhead.isBlank_head])]

/-- An entry is taken for a command exactly if its first token starts with a slash. -/
theorem isCommand_cleaned (h : (scan source typed).tokens.head? = some t) :
    isCommand (cleaned typed) = true ↔ t.kind ∈ Lexeme.slashed := by
  obtain ⟨r, more, rest, hspells, htext, -, htrim⟩ := trimLeft_cleaned h
  rw [htext] at hspells
  rw [isCommand, htrim, hspells.mem_slashed_iff]
  simp

theorem isBlank_cleaned (h : (scan source typed).tokens.head? = some t) : Text.isBlank (cleaned typed) = false := by
  obtain ⟨r, more, rest, -, -, -, htrim⟩ := trimLeft_cleaned h
  have hne : Text.trimLeft (cleaned typed) ≠ [] := by simp [htrim]
  rw [Text.trimLeft, Ne, List.dropWhile_eq_nil_iff] at hne
  rw [Bool.eq_false_iff, Text.isBlank, Ne, List.all_eq_true]
  exact hne

end Entry

/-! ## Comments as commands -/

/-- The first word of an entry. -/
def Entry.firstWord (entry : Text) : Text := (Text.trimLeft entry).takeWhile fun r => !r.isBlank

/-- The blanks at the end of a text are not part of its first word. -/
theorem Text.takeWhile_trim (t : Text) : ((trim t).takeWhile fun r => !r.isBlank) = Entry.firstWord t := by
  have hsplit : trimLeft t = trim t ++ ((trimLeft t).reverse.takeWhile Rune.isBlank).reverse := by
    rw [trim, ← List.reverse_append]
    exact List.reverse_eq_iff.1 List.takeWhile_append_dropWhile.symm
  have hblanks : ∀ r ∈ ((trimLeft t).reverse.takeWhile Rune.isBlank).reverse, r.isBlank = true :=
    fun r hr => List.mem_takeWhile_imp (List.mem_reverse.1 hr)
  rw [Entry.firstWord, hsplit]
  generalize ((trimLeft t).reverse.takeWhile Rune.isBlank).reverse = blanks at hblanks
  cases blanks with
  | nil => rw [List.append_nil]
  | cons r blanks => exact (Lexeme.span_append_of_not (by simp [hblanks r]) _ _).1.symm

namespace Command

theorem ofEntry?_eq_none_iff : ofEntry? entry = none ↔ ¬ Entry.isCommand entry = true := by
  unfold ofEntry?
  simp

/-- No command has two slashes. -/
theorem ofWords_slashes {name : Text} (h : (['/', '/'] : Text) <+: name) (arg : Text) :
    ofWords name arg = .unknown name := by
  have hne : ∀ known : Text, ¬ (['/', '/'] : Text) <+: known → name ≠ known := by
    rintro known hknown rfl
    exact hknown h
  rw [ofWords, if_neg (hne _ (by decide)), if_neg (hne _ (by decide)), if_neg (hne _ (by decide))]

/-- A comment of two slashes is a command that nobody knows. -/
theorem ofEntry?_slashComment (h : (scan source typed).tokens.head? = some t) (ht : t.kind = .slashComment) :
    ofEntry? (Entry.cleaned typed) = some (.unknown (Entry.firstWord (Entry.cleaned typed))) := by
  have hcommand : Entry.isCommand (Entry.cleaned typed) = true :=
    (Entry.isCommand_cleaned h).2 (by rw [ht]; decide)
  obtain ⟨r, more, rest, hspells, htext, -, htrim⟩ := Entry.trimLeft_cleaned h
  rw [ht] at hspells
  obtain ⟨note, hnote⟩ := hspells.of_slashComment
  obtain ⟨rfl, rfl⟩ := List.cons.inj (htext.symm.trans hnote)
  have hslashes : (['/', '/'] : Text) <+: Entry.firstWord (Entry.cleaned typed) := by
    rw [Entry.firstWord, htrim, Entry.cleaned_visible (by decide), List.takeWhile_cons_of_pos (by decide),
      List.cons_append, List.takeWhile_cons_of_pos (by decide)]
    exact ⟨_, rfl⟩
  unfold ofEntry?
  rw [if_pos hcommand]
  dsimp only
  rw [Text.takeWhile_trim, ofWords_slashes hslashes]

end Command

namespace Session

/-- What an entry leaves of a session: its run may change the machine, and nothing else. -/
theorem eval_session (limits : Limits) (s : Session) (entry : Text) : (s.eval limits entry).session =
    ⟨(run limits Entry.sourceName entry s.scope s.machine).machine, s.scope, s.trace⟩ := by
  unfold eval
  dsimp only
  split
  · split <;> rfl
  · split
    · rfl
    · split <;> rfl

theorem submit_eq (limits : Limits) (s : Session) (h : (scan source typed).tokens.head? = some t) :
    s.submit limits typed = s.handle limits (Entry.cleaned typed) := by
  rw [submit]
  exact if_neg (by simp [Entry.isBlank_cleaned h])

end Session

/-- An entry is taken for a program by its first token: it is a command exactly if that token starts with a slash. Any
other one is run, in the scope of the session and without its invisible runes, and the session goes on with what the run
left. So a program may start with a comment of a hash, while a comment of two slashes is a command that nobody knows:
what comes behind it is not run, and the session stays as it was. -/
theorem programs_told_by_first_token (typed : Text) {t : Token}
    (h : (scan Entry.sourceName typed).tokens.head? = some t) :
    (t.kind ∉ Lexeme.slashed ↔ Command.ofEntry? (Entry.cleaned typed) = none) ∧
    ∀ (limits : Limits) (s : Session),
      (t.kind ∉ Lexeme.slashed →
        s.submit limits typed = s.eval limits (Entry.cleaned typed) ∧
        (s.submit limits typed).session =
          ⟨(run limits Entry.sourceName (Entry.cleaned typed) s.scope s.machine).machine, s.scope, s.trace⟩) ∧
      (t.kind = .slashComment → s.submit limits typed =
        s.reply [.err ("Unknown command: " ++ Entry.firstWord (Entry.cleaned typed) ++ "\n")]) := by
  have hcommand : t.kind ∉ Lexeme.slashed ↔ Command.ofEntry? (Entry.cleaned typed) = none := by
    rw [Command.ofEntry?_eq_none_iff, Entry.isCommand_cleaned h]
  refine ⟨hcommand, fun limits s => ⟨fun hkind => ?_, fun hkind => ?_⟩⟩
  · have heval : s.submit limits typed = s.eval limits (Entry.cleaned typed) := by
      rw [Session.submit_eq limits s h, Session.handle, hcommand.1 hkind]
    exact ⟨heval, by rw [heval, Session.eval_session]⟩
  · rw [Session.submit_eq limits s h, Session.handle, Command.ofEntry?_slashComment h hkind]
    rfl

/-- Behind a comment of either sort a program is run as if it were alone. -/
theorem run_behind_comment {note : Text} (h : note = "# note" ∨ note = "// note") :
    (run .standard Entry.sourceName (note ++ "\nx = 1") Store.root .initial).machine =
      Machine.initial.bind Store.root "x" (.int 1) := by
  let place (column : Nat) : Position := ⟨2, column, Entry.sourceName⟩
  let leaf (kind : Kind) (text : Text) (column : Nat) : Node := ⟨kind, text, [], true, place column⟩
  let root : Node := (Tree.root Entry.sourceName).into .lbrace "\x7b"
    [⟨.assign, "=", [leaf .ident "x" 1, leaf .number "1" 5], true, place 3⟩]
  have hroot : (parse .standard Entry.sourceName (note ++ "\nx = 1")).result = .ok root := by
    rcases h with rfl | rfl <;> decide +kernel
  have hp : Program.compile .standard root = .ok ⟨root, .block [.assign "x" (.literal (.int 1))]⟩ := by rfl
  rw [(run_of_compile hroot hp Store.root .initial).2]
  rfl

/-- A program behind a comment of a hash binds its name. -/
theorem programs_told_by_first_token_hash :
    (scan Entry.sourceName ("# note" ++ "\nx = 1")).tokens.head? =
        some ⟨.hashComment, "# note", ⟨1, 1, Entry.sourceName⟩⟩ ∧
      ((Session.start false).submit .standard ("# note" ++ "\nx = 1")).session =
        ⟨Machine.initial.bind Store.root "x" (.int 1), Store.root, false⟩ := by
  have hfirst : (scan Entry.sourceName ("# note" ++ "\nx = 1")).tokens.head? =
      some ⟨.hashComment, "# note", ⟨1, 1, Entry.sourceName⟩⟩ := by decide +kernel
  have hcleaned : Entry.cleaned ("# note" ++ "\nx = 1") = Text.ofString "# note" ++ Text.ofString "\nx = 1" := by decide
  have hrun := ((programs_told_by_first_token _ hfirst).2 .standard (.start false)).1 (by decide)
  rw [hcleaned] at hrun
  exact ⟨hfirst, hrun.2.trans (congrArg (Session.mk · _ _) (run_behind_comment (.inl rfl)))⟩

/-- The same program behind a comment of two slashes is a command, and its name stays unbound. -/
theorem program_behind_slashes_not_run :
    (scan Entry.sourceName ("// note" ++ "\nx = 1")).tokens.head? =
        some ⟨.slashComment, "// note", ⟨1, 1, Entry.sourceName⟩⟩ ∧
      (scan Entry.sourceName ("// note" ++ "\nx = 1")).ending = .finished ⟨2, 6, Entry.sourceName⟩ ∧
      Command.ofEntry? (Entry.cleaned ("// note" ++ "\nx = 1")) = some (.unknown "//") ∧
      ((Session.start false).submit .standard ("// note" ++ "\nx = 1")).session.machine = .initial ∧
      (run .standard Entry.sourceName ("// note" ++ "\nx = 1") Store.root .initial).machine ≠ .initial := by
  refine ⟨by decide +kernel, by decide +kernel, by decide +kernel, rfl, fun h => ?_⟩
  have hbound : (Machine.initial.bind Store.root "x" (.int 1)).store.get? Store.root =
      some ⟨none, [("x", .int 1)]⟩ := by rfl
  rw [← run_behind_comment (.inr rfl), h] at hbound
  cases hbound

end Kettle
