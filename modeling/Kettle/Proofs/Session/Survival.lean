/-
What a program or a dialogue survives. Every source gives a value or stops with an error of the language, which the
program reports and a dialogue goes on after, but for one: an integer literal with too many digits. A dialogue and a call
of the program can come upon more that nobody deals with: a value that is too deep to be written, and what is around
them, where it does not do its part. Nothing else escapes.
-/
import Kettle.CommandLine
import Kettle.Proofs.Program.Rejection
import Kettle.Proofs.Tree.Roundtrip

namespace Kettle

/-- The tree of a source holds an integer with too many digits. -/
def HoldsOverlong (limits : Limits) (source text : Text) : Prop :=
  ∃ root, (parse limits source text).result = .ok root ∧ ∃ n ∈ root.preorder, n.Overlong limits

variable {limits : Limits} {source text : Text} {f : Fault}

theorem Rejected.escapes (h : Rejected limits source text f) :
    f.isError = true ∨ HoldsOverlong limits source text ∧ ∃ digits, f = .numeral (.tooLong limits.digits digits) := by
  rcases h.cause with ⟨cause, pos, rfl⟩ | rfl | ⟨cause, pos, rfl⟩ | ⟨root, hroot, n, hn, hlong, rfl⟩
  · exact .inl rfl
  · exact .inl rfl
  · exact .inl rfl
  · exact .inr ⟨⟨root, hroot, n, hn, hlong⟩, _, rfl⟩

/-- A run that stops with a fault that is no error of the language changed nothing, and its tree holds an integer with
too many digits. -/
theorem run_escapes {scope : ScopeId} {m : Machine} (hf : (run limits source text scope m).result = .error f) :
    f.isError = true ∨ HoldsOverlong limits source text ∧ (∃ digits, f = .numeral (.tooLong limits.digits digits)) ∧
      (run limits source text scope m).machine = m := by
  rcases rejected_or_accepted limits source text with ⟨f', hf'⟩ | ⟨p, hp⟩
  · obtain ⟨hresult, hmachine⟩ := hf'.run_eq scope m
    cases hf.symm.trans hresult
    exact hf'.escapes.imp_right fun h => ⟨h.1, h.2, hmachine⟩
  · have hruntime := hp.isRuntime scope m hf
    cases f <;> first | exact .inl rfl | cases hruntime

/-- What is shown stops only at a text that standard output does not take. -/
theorem Emission.deliver_fault {output : Output} {es : List Emission} (h : (deliver output es).2 = some f) :
    ∃ t reason, .out t ∈ es ∧ output t = some reason ∧ f = .outside (.output reason) := by
  induction es with
  | nil => cases h
  | cons e es ih =>
    have hlater : (deliver output es).2 = some f →
        ∃ t reason, .out t ∈ e :: es ∧ output t = some reason ∧ f = .outside (.output reason) := by
      intro h
      obtain ⟨t, reason, ht, hrefused, hfault⟩ := ih h
      exact ⟨t, reason, List.mem_cons_of_mem _ ht, hrefused, hfault⟩
    cases e with
    | out t =>
      unfold deliver at h
      split at h
      · rename_i reason hrefused
        exact ⟨t, reason, List.mem_cons_self .., hrefused, (Option.some.inj h).symm⟩
      · exact hlater h
    | err t => exact hlater h
    | log e => exact hlater h
    | clear => exact hlater h

/-! ## Dialogues -/

namespace Session

variable {output : Emission.Output} {entries : List Text}

/-- What a dialogue writes to standard output: lines of its own and what its entries show. -/
inductive Writes (limits : Limits) (entries : List Text) (t : Text) : Prop where
  | own (h : t ∈ [banner, "KeyboardInterrupt\n", "\n"])
  | entry {typed : Text} (hentry : typed ∈ entries) {s : Session} (h : .out t ∈ (s.submit limits typed).shown)

/-- The ways in which a dialogue ends otherwise than that nothing more is typed: one of its entries holds an integer
with too many digits, or the value of one is too deep to be written, or standard output does not take a text that is
written. -/
inductive Escape (limits : Limits) (output : Emission.Output) (entries : List Text) : Fault → Prop where
  | overlong {entry : Text} (hentry : entry ∈ entries) (digits : Nat)
      (h : HoldsOverlong limits Entry.sourceName (Entry.cleaned entry)) :
      Escape limits output entries (.numeral (.tooLong limits.digits digits))
  | deep {entry : Text} (hentry : entry ∈ entries) {scope : ScopeId} {m : Machine} {v w : Value}
      (hrun : (run limits Entry.sourceName (Entry.cleaned entry) scope m).result = .ok v) (hecho : echo v = some w)
      (h : w.shown? limits.nodes = none) : Escape limits output entries (.outside .tooDeepToWrite)
  | refused {t reason : Text} (hwrites : Writes limits entries t) (h : output t = some reason) :
      Escape limits output entries (.outside (.output reason))

theorem Escape.mono {entries' : List Text} (h : Escape limits output entries f) (hsub : entries ⊆ entries') :
    Escape limits output entries' f := by
  cases h with
  | overlong hentry digits h => exact .overlong (hsub hentry) digits h
  | deep hentry hrun hecho h => exact .deep (hsub hentry) hrun hecho h
  | refused hwrites h =>
    refine .refused ?_ h
    cases hwrites with
    | own h => exact .own h
    | entry hentry h => exact .entry (hsub hentry) h

theorem Escape.of_deliver {es : List Emission} (hwrites : ∀ t, .out t ∈ es → Writes limits entries t)
    (h : (Emission.deliver output es).2 = some f) : Escape limits output entries f := by
  obtain ⟨t, reason, ht, hrefused, rfl⟩ := Emission.deliver_fault h
  exact .refused (hwrites t ht) hrefused

/-- A line of its own ends a dialogue if standard output does not take it. -/
theorem Escape.of_own {t : Text} (ht : t ∈ [banner, "KeyboardInterrupt\n", "\n"])
    (h : (Emission.deliver output [.out t]).2 = some f) : Escape limits output entries f := by
  refine .of_deliver (fun t' ht' => ?_) h
  obtain rfl : t' = t := by simpa using ht'
  exact .own ht

theorem obey_crash (s : Session) (c : Command) : (s.obey c).crash = none := by
  cases c with
  | traceback switch => cases switch <;> rfl
  | _ => rfl

/-- What ends a session at an entry is an integer with too many digits in it, or its value. -/
theorem submit_escape {s : Session} {typed : Text} (h : (s.submit limits typed).crash = some f) :
    Escape limits output [typed] f := by
  have heval : (s.eval limits (Entry.cleaned typed)).crash = some f → Escape limits output [typed] f := by
    intro h
    unfold eval at h
    dsimp only at h
    split at h
    · rename_i cause hresult
      split at h
      · cases h
      · rename_i herror
        rcases run_escapes hresult with hlanguage | ⟨hlong, ⟨digits, rfl⟩, -⟩
        · exact absurd hlanguage herror
        · cases h
          exact .overlong (by simp) digits hlong
    · rename_i v hresult
      split at h
      · cases h
      · rename_i w hecho
        split at h
        · cases h
        · rename_i hshown
          cases h
          exact .deep (by simp) hresult hecho hshown
  unfold submit handle at h
  dsimp only at h
  split at h
  · cases h
  · split at h
    · rw [obey_crash] at h
      cases h
    · exact heval h

/-- A turn that ends the session took an entry that does, or what it showed was not taken. -/
theorem take_escape {w : Waiting} {keys : Keys} (h : (take limits output w keys).crash = some f) :
    Escape limits output (take limits output w keys).entry.toList f := by
  cases keys with
  | interrupt => exact .of_own (by simp) h
  | line t =>
    unfold take at h ⊢
    dsimp only at h ⊢
    split at h
    · rename_i hsubmitted
      rw [if_pos hsubmitted]
      rcases Option.or_eq_some_iff.1 h with hdeliver | ⟨-, hsubmit⟩
      · exact .of_deliver (fun _ ht => .entry (by simp) ht) hdeliver
      · exact submit_escape hsubmit
    · cases h

/-- A dialogue goes on until something escapes. -/
theorem converse_escape : ∀ {keys : List Keys} {w : Waiting}, (converse limits output w keys).crash = some f →
    Escape limits output (converse limits output w keys).entries f
  | [], w, h => .of_own (by simp) h
  | keys :: rest, w, h => by
    unfold converse at h ⊢
    dsimp only at h ⊢
    cases hcrash : (take limits output w keys).crash with
    | some f' =>
      rw [hcrash] at h
      cases h
      exact take_escape hcrash
    | none =>
      rw [hcrash] at h
      have hrest := converse_escape (show (converse limits output _ rest).crash = some f from h)
      exact hrest.mono (List.subset_append_right _ _)

theorem dialogue_escape {trace : Bool} {keys : List Keys} (h : (dialogue limits output trace keys).crash = some f) :
    Escape limits output (dialogue limits output trace keys).entries f := by
  unfold dialogue at h ⊢
  split at h
  · rename_i shown fault hdeliver
    cases h
    exact .of_own (by simp) (congrArg Prod.snd hdeliver)
  · exact converse_escape (show (converse limits output _ keys).crash = some f from h)

end Session

/-! ## Calls of the program -/

namespace CommandLine

/-- What a call of the program writes to standard output, if there is no dialogue: how it is called, or what its work
shows. -/
inductive Writes (limits : Limits) (w : World) (t : Text) : Prop where
  | usage (hrequest : request .run none w.args = .help) (h : t = usage ++ "\n")
  | work {mode : Mode} {arg : Option Text} {name text : Text} (hrequest : request .run none w.args = .process mode arg)
      (hread : w.readSource arg = .ok (name, text)) (h : .out t ∈ (work limits mode name text).1)

/-- The ways in which a call of the program ends otherwise than with an exit status: its dialogue escapes, its source
holds an integer with too many digits, or what is around it does not do its part: the system does not say whether there
is the file, standard input is no text, or standard output does not take a text that is written. -/
inductive Escape (limits : Limits) (w : World) : Fault → Prop where
  | dialogue {f : Fault} {entries : List Text} (hentries : entries = (call limits w).entries)
      (h : Session.Escape limits w.output entries f) : Escape limits w f
  | overlong {arg : Option Text} {name text : Text} (hrequest : request .run none w.args = .process .run arg)
      (hread : w.readSource arg = .ok (name, text)) (digits : Nat) (h : HoldsOverlong limits name text) :
      Escape limits w (.numeral (.tooLong limits.digits digits))
  | lookup {mode : Mode} {name reason : Text} (hrequest : request .run none w.args = .process mode (some name))
      (h : w.file (.ofText name) = .failed reason) : Escape limits w (.outside (.lookup reason))
  | input {mode : Mode} {arg : Option Text} {fault : Utf8.Fault}
      (hrequest : request .run none w.args = .process mode arg) (harg : arg = none ∨ arg = some "-") (h : Utf8.decode w.input = .error fault) :
      Escape limits w (.outside (.input fault))
  | refused {t reason : Text} (hwrites : Writes limits w t) (h : w.output t = some reason) :
      Escape limits w (.outside (.output reason))

variable {w : World}

/-- The work on a source stops with errors of the language, unless the source is run and holds an integer with too many
digits. -/
theorem work_escape {mode : Mode} {name : Text} (h : (work limits mode name text).2 = some f) :
    f.isError = true ∨
      mode = .run ∧ HoldsOverlong limits name text ∧ ∃ digits, f = .numeral (.tooLong limits.digits digits) := by
  cases mode with
  | tokens =>
    unfold work listTokens at h
    dsimp only at h
    split at h <;> cases h
    exact .inl rfl
  | tree =>
    have hstatements : ∀ ns : List Node, (listStatements limits ns).2 = some f → f.isError = true := by
      intro ns
      induction ns with
      | nil => rintro ⟨⟩
      | cons n ns ih =>
        unfold listStatements
        split
        · rintro ⟨⟩
          rfl
        · exact ih
    unfold work listTree at h
    dsimp only at h
    split at h
    · rename_i f hf
      cases h
      rcases parse_error hf with rfl | ⟨cause, pos, -, rfl⟩ <;> exact .inl rfl
    · exact .inl (hstatements _ h)
  | run =>
    unfold work runSource at h
    dsimp only at h
    split at h
    · rename_i f hf
      cases h
      exact (run_escapes hf).imp_right fun h => ⟨rfl, h.1, h.2.1⟩
    · cases h

theorem leave_escape {status : Nat} {es : List Emission} (hwrites : ∀ t, .out t ∈ es → Writes limits w t)
    (h : (w.leave status es).crash = some f) : Escape limits w f := by
  unfold World.leave at h
  split at h
  · cases h
  · rename_i shown fault hdeliver
    cases h
    obtain ⟨t, reason, ht, hrefused, rfl⟩ := Emission.deliver_fault (congrArg Prod.snd hdeliver)
    exact .refused (hwrites t ht) hrefused

/-- What is done after the work escapes as the work does, or standard output does not take what it shows. -/
theorem conclude_escape {done : Work} (hwrites : ∀ t, .out t ∈ done.1 → Writes limits w t)
    (hdone : ∀ f, done.2 = some f → f.isError = true ∨ Escape limits w f) (h : (conclude w done).crash = some f) :
    Escape limits w f := by
  unfold conclude at h
  split at h
  · exact leave_escape hwrites h
  · rename_i shown f'
    split at h
    · exact leave_escape (fun t ht => hwrites t (by simpa using ht)) h
    · rename_i herror
      rcases Option.or_eq_some_iff.1 h with hleave | ⟨-, hwork⟩
      · exact leave_escape hwrites hleave
      · cases hwork
        exact (hdone f rfl).resolve_left herror

theorem readSource_escape {mode : Mode} {arg : Option Text} (hrequest : request .run none w.args = .process mode arg)
    (h : w.readSource arg = .error f) : f.isError = true ∨ Escape limits w f := by
  have hinput : (arg = none ∨ arg = some "-") → w.readInput = .error f → f.isError = true ∨ Escape limits w f := by
    intro harg h
    unfold World.readInput at h
    split at h
    · rename_i fault hdecode
      cases h
      exact .inr (.input hrequest harg hdecode)
    · cases h
  unfold World.readSource at h
  split at h
  · exact hinput (.inl rfl) h
  · split at h
    · rename_i harg
      exact hinput (.inr (congrArg some harg)) h
    · split at h
      · cases h
        exact .inl rfl
      · rename_i hfile
        cases h
        exact .inr (.lookup hrequest hfile)
      · cases h
        exact .inl rfl
      · split at h
        · cases h
          exact .inl rfl
        · cases h

theorem call_escape (h : (call limits w).crash = some f) : Escape limits w f := by
  have hcall := h
  unfold call at h
  split at h
  · rename_i hrequest
    refine leave_escape (fun t ht => .usage hrequest ?_) h
    simpa using ht
  · exact leave_escape (by simp) h
  · rename_i mode arg hrequest
    split at h
    · rename_i hterminal
      refine .dialogue ?_ (Session.dialogue_escape h)
      rw [call, hrequest]
      simp only [hterminal, if_true]
    · refine conclude_escape (fun t ht => ?_) (fun f hf => ?_) h
      · split at ht
        · cases ht
        · rename_i name text hread
          exact .work hrequest hread ht
      · split at hf
        · rename_i f' hread
          cases hf
          exact readSource_escape hrequest hread
        · rename_i name text hread
          refine (work_escape hf).imp_right ?_
          rintro ⟨rfl, hlong, digits, rfl⟩
          exact .overlong hrequest hread digits hlong

end CommandLine

/-! ## Integers with too many digits -/

/-- A row of digits is parsed to a number. -/
theorem parse_digits (limits : Limits) (source : Text) {digits : Text} (h : Decimal.AllDigits digits)
    (hne : digits ≠ []) :
    ∃ pos, (parse limits source digits).result =
      .ok ((Tree.root source).into .lbrace "\x7b" [⟨.number, digits, [], true, pos⟩]) := by
  let n : Node := ⟨.number, digits, [], true, .start []⟩
  have hword : n.IsWord := ⟨⟨.number, digits, .start []⟩, rfl, Decimal.spells_of_digits h hne, rfl⟩
  have hkind : n.kind ∉ Tree.unwrittenKinds := by simp [n, Tree.unwrittenKinds, Tree.bracketKinds]
  have hderives : Statement.Derives [n] n := by
    refine .plain (.single (.single (.single (.single (.single (.single (.operand (.leaf rfl ?_))))))))
    simp [n, Statement.leafKinds]
  have hnesting : Node.nesting [digits] ≤ limits.brackets := by
    have hweight : Node.weight digits = 0 := Tree.weight_word hword (Tree.not_bracket hkind)
    simp [Node.nesting, hweight]
  obtain ⟨ns, hns, hparse⟩ := Tree.parse_spelled (Tree.spelled_word hword hkind)
    (.last (by simp [n, Tree.isSeparator, Node.isLoose]) hderives) hnesting source
  obtain ⟨n', rfl, hn'⟩ := List.map_eq_singleton_iff.1 hns
  refine ⟨n'.pos, (congrArg Tree.Built.result hparse).trans ?_⟩
  -- positions apart, the node is the number
  obtain ⟨kind, text, children, resolved, pos⟩ := n'
  obtain ⟨rfl, rfl, hchildren, rfl, -⟩ := Node.mk.inj hn'
  rw [Node.relocateAll_eq, Node.relocateAll_eq, List.map_nil, List.map_eq_nil_iff] at hchildren
  rw [hchildren]

/-- A row of digits that is too long ends a run with a fault that is no error of the language, and changes nothing. -/
theorem run_digits {digits : Text} (h : Decimal.AllDigits digits) (hlong : limits.digits < digits.length)
    (hnodes : 2 ≤ limits.nodes) (source : Text) (scope : ScopeId) (m : Machine) :
    (run limits source digits scope m).result = .error (.numeral (.tooLong limits.digits digits.length)) ∧
      (run limits source digits scope m).machine = m := by
  have hne : digits ≠ [] := by
    rintro rfl
    cases hlong
  obtain ⟨pos, hroot⟩ := parse_digits limits source h hne
  refine run_of_compile_error hroot ?_ scope m
  have hpoint : digits.contains ('.' : Rune) = false := by
    rw [← Bool.not_eq_true, List.contains_iff_mem]
    intro hmem
    cases h _ hmem
  have hnumber : Literal.ofNumber limits digits pos = .error (.numeral (.tooLong limits.digits digits.length)) := by
    rw [Literal.ofNumber, hpoint, Decimal.readInt_digits limits.digits h hne, if_pos hlong]
    rfl
  obtain ⟨depth, hdepth⟩ := Nat.exists_eq_add_of_le' hnodes
  simp only [Program.compile, Code.compile, hdepth, Code.compileAt, Node.into, List.mapM_cons, hnumber]
  rfl

/-- Within the limits of the interpreter, a row of 4301 ones is too long. -/
theorem run_ones : (run .standard [] (List.replicate 4301 ('1' : Rune)) Store.root .initial).result =
    .error (.numeral (.tooLong Limits.standard.digits 4301)) := by
  have hdigits : Decimal.AllDigits (List.replicate 4301 ('1' : Rune)) := by
    intro r hr
    rw [List.eq_of_mem_replicate hr]
    rfl
  have hlength : Limits.standard.digits < (List.replicate 4301 ('1' : Rune)).length := by
    rw [List.length_replicate]
    decide
  obtain ⟨hresult, -⟩ := run_digits hdigits hlength (by decide) [] Store.root .initial
  rwa [List.length_replicate] at hresult

/-- What escapes is accounted for. Every run gives a value or stops with an error of the language, unless its tree holds
an integer with too many digits, and then nothing was changed. So a dialogue goes on after every entry, and a call of the
program ends with an exit status, unless there is such an integer in an entry or in the source, the value of an entry is
too deep to be written, or what is around them does not do its part. -/
theorem escapes_accounted_for (limits : Limits) :
    (∀ source text scope m,
      (∃ v, (run limits source text scope m).result = .ok v) ∨
      (∃ f, (run limits source text scope m).result = .error f ∧ f.isError = true) ∨
      HoldsOverlong limits source text ∧ (run limits source text scope m).machine = m ∧
        ∃ digits, (run limits source text scope m).result = .error (.numeral (.tooLong limits.digits digits))) ∧
    (∀ output trace keys f, (Session.dialogue limits output trace keys).crash = some f →
      Session.Escape limits output (Session.dialogue limits output trace keys).entries f) ∧
    ∀ (w : CommandLine.World) f, (CommandLine.call limits w).crash = some f → CommandLine.Escape limits w f := by
  refine ⟨fun source text scope m => ?_, fun _ _ _ _ => Session.dialogue_escape, fun _ _ => CommandLine.call_escape⟩
  cases hresult : (run limits source text scope m).result with
  | ok v => exact .inl ⟨v, rfl⟩
  | error f =>
    rcases run_escapes hresult with herror | ⟨hlong, ⟨digits, rfl⟩, hmachine⟩
    · exact .inr (.inl ⟨f, rfl, herror⟩)
    · exact .inr (.inr ⟨hlong, hmachine, digits, rfl⟩)

/-- What surrounds a call with the name of a file that the system finds too long. -/
def CommandLine.longName : World :=
  ⟨["f"], fun _ => .failed "[Errno 36] File name too long", [], true, [], Utf8.refusal?, none, none⟩

/-- A row of 4301 ones holds an integer that is too long; standard output takes no text with a surrogate, so that a
dialogue ends with an entry whose value is one; and a call ends where the system does not say whether there is a file. -/
theorem escapes_accounted_for_surrogate :
    HoldsOverlong .standard [] (List.replicate 4301 ('1' : Rune)) ∧
      (∃ reason, (Session.dialogue .standard Utf8.refusal? false [.line "\"\\ud800\""]).crash =
          some (.outside (.output reason)) ∧
        Session.Escape .standard Utf8.refusal?
          (Session.dialogue .standard Utf8.refusal? false [.line "\"\\ud800\""]).entries (.outside (.output reason))) ∧
      ∃ reason, (CommandLine.call .standard CommandLine.longName).crash = some (.outside (.lookup reason)) ∧
        CommandLine.Escape .standard CommandLine.longName (.outside (.lookup reason)) := by
  obtain ⟨hruns, hdialogues, hcalls⟩ := escapes_accounted_for .standard
  refine ⟨?_, ?_, ?_⟩
  · rcases hruns [] (List.replicate 4301 ('1' : Rune)) Store.root .initial with ⟨v, hv⟩ | ⟨f, hf, herror⟩ | ⟨hlong, -⟩
    · cases hv.symm.trans run_ones
    · cases hf.symm.trans run_ones
      cases herror
    · exact hlong
  · have hcrash : (Session.dialogue .standard Utf8.refusal? false [.line "\"\\ud800\""]).crash =
        some (.outside (.output
          "'utf-8' codec can't encode character '\\ud800' in position 1: surrogates not allowed")) := by
      decide +kernel
    exact ⟨_, hcrash, hdialogues _ _ _ _ hcrash⟩
  · have hcrash : (CommandLine.call .standard CommandLine.longName).crash =
        some (.outside (.lookup "[Errno 36] File name too long")) := rfl
    exact ⟨_, hcrash, hcalls _ _ hcrash⟩

/-- Within the limits of the interpreter, a row of 4301 ones gives neither a value nor an error of the language. -/
theorem overlong_integer_escapes :
    ¬ ((∃ v, (run .standard [] (List.replicate 4301 ('1' : Rune)) Store.root .initial).result = .ok v) ∨
      ∃ f, (run .standard [] (List.replicate 4301 ('1' : Rune)) Store.root .initial).result = .error f ∧
        f.isError = true) := by
  rw [run_ones]
  rintro (⟨v, hv⟩ | ⟨f, hf, herror⟩)
  · cases hv
  · cases hf
    cases herror

end Kettle
