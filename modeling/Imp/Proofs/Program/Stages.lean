import Imp.Program.Runs
import Imp.Proofs.Program.Diagnosis
import Imp.Proofs.Semantics.Limits
import Imp.Proofs.Semantics.Values
import Imp.Proofs.Token.Classes
import Imp.Proofs.Token.Spacing

/-! # Errors tell how far a program came

A source text is scanned, its tokens are read as a program, and the program runs. Each stage has errors of its own
and hands on none of another: illegal characters, tokens that do not fit, and faults. The first two stages know
nothing of an environment, so an error of theirs leaves it as it was; and what they report stands in the source
text, at the place that they name. -/

namespace Imp

variable {source : String} {ts : Array Token} {err : Error}

/-! ### Scanning -/

theorem error_of_tokenize (h : tokenize source = .error err) :
    ∃ c u v, err = .illegalCharacter c (Place.behind u) ∧ source.toList = u ++ c :: v := by
  obtain ⟨ts, d, hp, hd⟩ := Cursor.exists_passes (.ofString source)
  obtain ⟨u, hu, hplace⟩ := hp.rest_eq
  cases hrest : d.rest with
  | nil =>
    rw [tokenize, hp.read_of_nil hrest] at h
    cases h
  | cons c v =>
    rw [tokenize, hp.read_of_stuck hd hrest] at h
    cases h
    refine ⟨c, u, v, ?_, by rw [← hrest]; exact hu⟩
    rw [hplace]
    exact congrArg _ (Place.after_origin u)

/-- A token stands in the source text, at its place. -/
theorem stands_of_tokenize (h : tokenize source = .ok ts) {t : Token} (ht : t ∈ ts) :
    ∃ u v, source.toList = u ++ t.text.toList ++ v ∧ t.place = Place.behind u := by
  obtain ⟨d, hp, -⟩ := Cursor.exists_passes_of_tokenize h
  obtain ⟨_, _, f, g, hf, hstep, -⟩ := hp.of_mem (Array.mem_toList_iff.mpr ht)
  obtain ⟨u, hu, hplace⟩ := hf.rest_eq
  obtain ⟨hrest, -, htplace, -⟩ := Cursor.step?_token hstep
  refine ⟨u, g.rest, ?_, ?_⟩
  · rw [List.append_assoc, ← hrest]
    exact hu
  · rw [htplace, hplace]
    exact Place.after_origin u

/-- The source texts without tokens are those that a gap makes up. -/
theorem tokenize_eq_empty_iff : tokenize source = .ok #[] ↔ IsFinalGap source.toList := by
  constructor
  · intro h
    obtain ⟨d, hp, hd⟩ := Cursor.exists_passes_of_tokenize h
    have hstuck : d.step? = none := Option.eq_none_iff_forall_ne_some.mpr fun _ hs => Cursor.rest_ne_nil hs hd
    obtain ⟨u, hu, -, hl⟩ := hp.laidOut hstuck [] [] .nothing rfl
    rw [hd, List.append_nil] at hu
    change source.toList = u at hu
    rw [hu]
    cases hl with
    | last hg => exact hg.elim Or.inl And.right
  · intro h
    obtain ⟨ts, hts, hkeys⟩ := tokenize_iff.mpr (Lexicon.splits_of_isFinalGap h)
    rwa [Array.toList_eq_nil_iff.mp (List.map_eq_nil_iff.mp hkeys)] at hts

/-! ### Reading -/

namespace Program

variable {limit : Option UInt64} {e e' : Env} {f : Fault}

theorem ofSource_eq_error : ofSource source = .error err ↔
    tokenize source = .error err ∨ ∃ ts, tokenize source = .ok ts ∧ ofTokens ts = .error err :=
  bind_eq_error

theorem isSyntax_of_ofSource (h : ofSource source = .error err) : err.isSyntax := by
  rcases ofSource_eq_error.mp h with h | ⟨ts, -, h⟩
  · obtain ⟨c, u, v, rfl, -⟩ := error_of_tokenize h
    rfl
  · exact isSyntax_of_ofTokens h

theorem ofSource_eq_unexpectedEnd_iff : ofSource source = .error .unexpectedEnd ↔ IsFinalGap source.toList := by
  rw [← tokenize_eq_empty_iff, ofSource_eq_error]
  constructor
  · rintro (h | ⟨ts, hts, h⟩)
    · obtain ⟨c, u, v, herr, -⟩ := error_of_tokenize h
      cases herr
    · rcases error_of_ofTokens h with ⟨rfl, -⟩ | ⟨k, t, -, herr⟩
      · exact hts
      · unfold reported at herr
        split at herr <;> cases herr
  · intro h
    exact Or.inr ⟨#[], h, rfl⟩

/-! ### Running -/

theorem exec_mono {n m : Nat} (hnm : n ≤ m) {verdict : Except Error Unit}
    (h : exec limit n source e = some (verdict, e')) : exec limit m source e = some (verdict, e') := by
  unfold exec at h ⊢
  cases hs : ofSource source with
  | error err => simpa only [hs] using h
  | ok s =>
    simp only [hs, Option.map_eq_some_iff] at h ⊢
    obtain ⟨o, ho, hanswer⟩ := h
    exact ⟨o, Stmt.exec_mono hnm ho, hanswer⟩

theorem Answers.unique {verdict verdict' : Except Error Unit} {a : Env} (h : Answers limit source e verdict e')
    (h' : Answers limit source e verdict' a) : verdict = verdict' ∧ e' = a := by
  obtain ⟨n, hn⟩ := h
  obtain ⟨m, hm⟩ := h'
  exact Prod.mk.inj (Option.some.inj
    ((exec_mono (Nat.le_max_left n m) hn).symm.trans (exec_mono (Nat.le_max_right n m) hm)))

/-- A text that is no program is answered at once, and a program is answered with the outcome of its run. -/
theorem answers_iff {verdict : Except Error Unit} : Answers limit source e verdict e' ↔
    (∃ err, ofSource source = .error err ∧ verdict = .error err ∧ e' = e) ∨
    ∃ o, Ends limit source e o ∧ verdict = o.verdict ∧ e' = o.env := by
  unfold Answers exec Ends Stmt.Ends
  cases ofSource source with
  | error err => simp [eq_comm]
  | ok s =>
    simp only [Option.map_eq_some_iff, Prod.mk.injEq, reduceCtorEq, false_and, exists_false, false_or,
      Except.ok.injEq, exists_eq_left']
    constructor
    · rintro ⟨fuel, o, ho, rfl, rfl⟩
      exact ⟨o, ⟨fuel, ho⟩, rfl, rfl⟩
    · rintro ⟨o, ⟨fuel, ho⟩, rfl, rfl⟩
      exact ⟨fuel, o, ho, rfl, rfl⟩

/-- What does not go on for ever has an answer. -/
theorem exists_answers (h : ¬ Diverges limit source e) : ∃ verdict a, Answers limit source e verdict a := by
  cases hs : ofSource source with
  | error err => exact ⟨_, _, answers_iff.mpr (.inl ⟨err, hs, rfl, rfl⟩)⟩
  | ok s =>
    have hends : ¬ s.Diverges limit e := fun hd => h ⟨s, hs, hd⟩
    obtain ⟨fuel, hne⟩ := not_forall.mp hends
    obtain ⟨o, ho⟩ := Option.ne_none_iff_exists'.mp hne
    exact ⟨_, _, answers_iff.mpr (.inr ⟨o, ⟨s, hs, fuel, ho⟩, rfl, rfl⟩)⟩

theorem answers_ok_iff : Answers limit source e (.ok ()) e' ↔
    ∃ s, ofSource source = .ok s ∧ s.Ends limit e (.done e') := by
  rw [answers_iff]
  constructor
  · rintro (⟨err, -, herr, -⟩ | ⟨o, ⟨s, hs, ho⟩, hverdict, rfl⟩)
    · cases herr
    · cases o with
      | done e => exact ⟨s, hs, ho⟩
      | stopped f e => cases hverdict
  · rintro ⟨s, hs, ho⟩
    exact .inr ⟨_, ⟨s, hs, ho⟩, rfl, rfl⟩

theorem answers_error_iff : Answers limit source e (.error err) e' ↔
    (ofSource source = .error err ∧ e' = e) ∨
    ∃ s f, ofSource source = .ok s ∧ s.Ends limit e (.stopped f e') ∧ err = .fault f := by
  rw [answers_iff]
  constructor
  · rintro (⟨_, h, herr, rfl⟩ | ⟨o, ⟨s, hs, ho⟩, herr, rfl⟩)
    · cases herr
      exact Or.inl ⟨h, rfl⟩
    · cases o with
      | done a => cases herr
      | stopped f a =>
        cases herr
        exact Or.inr ⟨s, f, hs, ho, rfl⟩
  · rintro (⟨h, rfl⟩ | ⟨s, f, hs, ho, rfl⟩)
    · exact Or.inl ⟨err, h, rfl, rfl⟩
    · exact Or.inr ⟨_, ⟨s, hs, ho⟩, rfl, rfl⟩

theorem isSyntax_of_verdict {o : Outcome} (h : o.verdict = .error err) : err.isSyntax = false := by
  cases o with
  | done e => cases h
  | stopped f e =>
    cases h
    rfl

theorem answers_syntax_error_iff (hs : err.isSyntax) :
    Answers limit source e (.error err) e' ↔ ofSource source = .error err ∧ e' = e := by
  rw [answers_error_iff]
  refine or_iff_left ?_
  rintro ⟨s, f, -, -, rfl⟩
  cases hs

theorem answers_fault_iff : Answers limit source e (.error (.fault f)) e' ↔
    ∃ s, ofSource source = .ok s ∧ s.Ends limit e (.stopped f e') := by
  rw [answers_error_iff]
  constructor
  · rintro (⟨h, -⟩ | ⟨s, _, hs, hends, hf⟩)
    · cases isSyntax_of_ofSource h
    · cases hf
      exact ⟨s, hs, hends⟩
  · rintro ⟨s, hs, hends⟩
    exact Or.inr ⟨s, f, hs, hends, rfl⟩

theorem eval_ne_tooManyIterations (fuel : Nat) (source : String) (n : UInt64) :
    eval fuel source ≠ some (.error (.fault (.tooManyIterations n))) := by
  intro h
  obtain ⟨⟨verdict, e⟩, hexec, h⟩ := Option.map_eq_some_iff.mp h
  cases verdict with
  | ok _ => cases h
  | error err =>
    cases h
    obtain ⟨s, -, hends⟩ := answers_fault_iff.mp ⟨fuel, hexec⟩
    cases hends.limit_eq

/-- An error tells whether anything ran. The answer is a syntax error exactly if the text was not scanned, or its
    tokens were not read, and then the environment is the one from before; every other error is a fault that stopped
    the program, and runs have no other errors. The scanner reports an illegal character, at the place where it
    stands. Of the tokens of a text, the parser reports one, at the place where it stands, or that there are none;
    these are the texts of blanks and comments alone. Without a limit no limit is reported. -/
theorem answers_error_stages (limit : Option UInt64) (source : String) (e : Env) :
    (∀ err e', err.isSyntax → (Answers limit source e (.error err) e' ↔
      (tokenize source = .error err ∨ ∃ ts, tokenize source = .ok ts ∧ ofTokens ts = .error err) ∧ e' = e)) ∧
    (∀ err e', ¬ err.isSyntax → (Answers limit source e (.error err) e' ↔
      ∃ s f, ofSource source = .ok s ∧ s.Ends limit e (.stopped f e') ∧ err = .fault f)) ∧
    (∀ err, tokenize source = .error err →
      ∃ c u v, err = .illegalCharacter c (Place.behind u) ∧ source.toList = u ++ c :: v) ∧
    (∀ ts err, tokenize source = .ok ts → ofTokens ts = .error err → err = .unexpectedEnd ∨
      ∃ t u v, t ∈ ts ∧ source.toList = u ++ t.text.toList ++ v ∧ t.place = Place.behind u ∧
        (err = .parseError ("expected a statement, found '" ++ t.text ++ "' at " ++ t.place.text) ∨
          err = .syntaxError t.place ("unexpected token '" ++ t.text ++ "'"))) ∧
    (ofSource source = .error .unexpectedEnd ↔ IsFinalGap source.toList) ∧
    (∀ (s : Stmt) o err, s.Ends limit e o → o.verdict = .error err → err.isSyntax = false) ∧
    ∀ fuel n, eval fuel source ≠ some (.error (.fault (.tooManyIterations n))) := by
  refine ⟨fun err e' hs => ?_, fun err e' hs => ?_, fun err h => error_of_tokenize h, fun ts err hts h => ?_,
    ofSource_eq_unexpectedEnd_iff, fun s o err _ h => isSyntax_of_verdict h,
    fun fuel n => eval_ne_tooManyIterations fuel source n⟩
  · rw [answers_syntax_error_iff hs, ofSource_eq_error]
  · rw [answers_error_iff]
    exact or_iff_right fun h => hs (isSyntax_of_ofSource h.1)
  · rcases error_of_ofTokens h with ⟨-, rfl⟩ | ⟨k, t, ht, rfl⟩
    · exact Or.inl rfl
    · obtain ⟨u, v, hsource, hplace⟩ := stands_of_tokenize hts ht
      refine Or.inr ⟨t, u, v, ht, hsource, hplace, ?_⟩
      unfold reported
      split
      · exact Or.inl rfl
      · exact Or.inr rfl

theorem answers_error_stages_semicolon :
    let source := "#\n;"
    let e := Env.ofList [("x", 1)]
    let err := Error.parseError "expected a statement, found ';' at line 2, column 1"
    err.isSyntax ∧ tokenize source = .ok #[⟨";", .reserved, ⟨2, 1⟩⟩] ∧ ofTokens #[⟨";", .reserved, ⟨2, 1⟩⟩] = .error err ∧
      Answers (some 3) source e (.error err) e ∧
      ∃ u v, source.toList = u ++ ";".toList ++ v ∧ Place.behind u = ⟨2, 1⟩ := by
  intro source e err
  have hp : Cursor.Passes (.ofString "#\n;") [⟨";", .reserved, ⟨2, 1⟩⟩] ⟨[], ⟨2, 2⟩⟩ :=
    .skip rfl (.skip rfl (.token rfl .here))
  have hts : tokenize source = .ok #[⟨";", .reserved, ⟨2, 1⟩⟩] := by rw [tokenize, hp.read_of_nil rfl]
  have herr : ofTokens #[⟨";", .reserved, ⟨2, 1⟩⟩] = .error err := rfl
  obtain ⟨hearly, -, -, hreport, -⟩ := answers_error_stages (some 3) source e
  refine ⟨rfl, hts, herr, (hearly err e rfl).mpr ⟨Or.inr ⟨_, hts, herr⟩, rfl⟩, ?_⟩
  rcases hreport _ err hts herr with h | ⟨t, u, v, ht, hsource, hplace, -⟩
  · exact Error.noConfusion h
  · obtain rfl := Array.mem_singleton.mp ht
    exact ⟨u, v, hsource, hplace.symm⟩

end Program

end Imp
