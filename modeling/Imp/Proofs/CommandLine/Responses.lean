import Imp.Proofs.CommandLine.Arguments
import Imp.Proofs.CommandLine.Log
import Imp.Proofs.CommandLine.Output
import Imp.Proofs.Json.RoundTrip
import Imp.Proofs.Program.Formatting
import Imp.Proofs.Program.Messages
import Imp.Proofs.Semantics.LimitedRuns

/-! # The command line prints all or nothing

With `--ast` a command answers with the program and runs nothing. Otherwise it answers with what the library
answers when it reads and runs the source text from no variables: with the variables of a run that reached its
end, or with the message of the error, and then with nothing else. What is printed as JSON is read back as the tree
or as the variables, and the log that stands above the answer leaves it as it is. -/

namespace Imp

variable {source : String}

/-! ### Answers of the library -/

namespace Program

variable {limit : Option UInt64} {e : Env}

theorem exists_ofSource_iff : (∃ s, ofSource source = .ok s) ↔
    ∃ ts s, tokenize source = .ok ts ∧ ofTokens ts = .ok s := by
  unfold ofSource
  simp only [bind_eq_ok]
  exact exists_comm

theorem exists_answers_ok_iff : (∃ a, Answers limit source e (.ok ()) a) ↔
    ∃ ts s a, tokenize source = .ok ts ∧ ofTokens ts = .ok s ∧ s.Ends limit e (.done a) := by
  simp only [answers_ok_iff]
  constructor
  · rintro ⟨a, s, hs, hends⟩
    obtain ⟨ts, hts, hs⟩ := bind_eq_ok.mp hs
    exact ⟨ts, s, a, hts, hs, hends⟩
  · rintro ⟨ts, s, a, hts, hs, hends⟩
    exact ⟨a, s, bind_eq_ok.mpr ⟨ts, hts, hs⟩, hends⟩

end Program

namespace CommandLine

open Text

variable {o : Options} {r : Response} {logger : Logger} {lines : List String} {err : Error} {e : Env}

theorem decode_toUTF8 (source : String) : decode source.toUTF8 = .ok source := by
  have hdecoded : String.fromUTF8? source.toUTF8 = some source := dif_pos source.isValidUTF8
  rw [decode, hdecoded]

/-! ### Responses -/

theorem lines?_failure {reason : String} (h : IsLine reason) :
    lines? (failure reason).stderr = some ["Error: " ++ reason] :=
  lines?_line (isLine_append.mpr ⟨by decide, h⟩)

theorem failed_below_failure {reason : String} (h : IsLine reason) (hlines : IsLog lines) :
    ((failure reason).below lines).Failed reason where
  code := rfl
  stdout := rfl
  stderr := by
    refine ⟨lines, ?_, fun line hline => (hlines line hline).2⟩
    rw [Response.below, lines?_join_append (fun line hline => (hlines line hline).1), lines?_failure h]
    rfl

theorem errorLines?_below_success (text : String) (hlines : IsLog lines) :
    ((success text).below lines).errorLines? = some [] := by
  rw [Response.errorLines?_below hlines]
  rfl

theorem isErrorLine_error (reason : String) : isErrorLine ("Error: " ++ reason) = true := by
  rw [isErrorLine, String.toList_append]
  exact List.isPrefixOf_iff_prefix.mpr (List.prefix_append _ _)

/-- The lines above what an answer prints on standard error are all that is read as the log. -/
theorem logLines?_below (hr : (∃ text, r = success text) ∨ ∃ reason, IsLine reason ∧ r = failure reason)
    (hlines : IsLog lines) : (r.below lines).logLines? = some lines := by
  have hlog : lines.filter (! isErrorLine ·) = lines :=
    List.filter_eq_self.mpr fun line hline => by simp [(hlines line hline).2]
  have hreport : ∃ report, lines? r.stderr = some report ∧ report.filter (! isErrorLine ·) = [] := by
    rcases hr with ⟨text, rfl⟩ | ⟨reason, hreason, rfl⟩
    · exact ⟨[], rfl, rfl⟩
    · exact ⟨_, lines?_failure hreason, by simp [isErrorLine_error]⟩
  obtain ⟨report, hread, hnone⟩ := hreport
  rw [Response.logLines?, Response.below, lines?_join_append (fun line hline => (hlines line hline).1), hread,
    Option.map_some, Option.map_some, List.filter_append, hlog, hnone, List.append_nil]

/-- The log of a response has the lines of all events down to the level that the count of `-v` asks for. -/
theorem Options.logLines?_of_respond (hlogger : logger.Lawful) {fuel : Nat}
    (h : o.respond fuel (.ok source) logger = some r) : ∃ q events, o.answerTo fuel source logger = some (q, events) ∧
      r.logLines? = some (logger.lines (.ofVerbosity o.verbosity) events) := by
  obtain ⟨q, events, hq, rfl⟩ := respond_eq_some_iff.mp h
  exact ⟨q, events, hq, logLines?_below (answerTo_reports hq) (hlogger.isLog _ (isLine_of_answerTo hq))⟩

/-- With three `-v` and more, a run that the library answers is told in the log, where all that it stored can be found
    in the order in which it was stored. -/
theorem Options.log_of_responds (hlogger : logger.Lawful) (hast : ¬ o.ast) (hverbose : 3 ≤ o.verbosity)
    {verdict : Except Error Unit} (h : Program.Answers o.maxIterations source .empty verdict e)
    (hr : o.Responds logger (.ok source) r) : ∃ events : List Event,
      r.logLines? = some (events.mapIdx logger.line) ∧ events.foldl (fun e event => event.replay e) .empty = e := by
  obtain ⟨fuel, hfuel⟩ := hr
  obtain ⟨q, events, hq, hlog⟩ := logLines?_of_respond hlogger hfuel
  rw [Level.ofVerbosity_eq_trace hverbose, logger.lines_trace] at hlog
  obtain ⟨⟨verdict', e'⟩, hexec, he⟩ := Option.map_eq_some_iff.mp (replay_of_answerTo hast hverbose hq)
  exact ⟨events, hlog, he.symm.trans (h.unique ⟨fuel, hexec⟩).2.symm⟩

/-- Under a limit the fuel that the program gives to a run is enough. -/
theorem Options.respond_ne_none (h : o.maxIterations.isSome) (logger : Logger) (source : String) :
    o.respond (Stmt.fuelFor o.maxIterations) (.ok source) logger ≠ none := by
  obtain ⟨n, hn⟩ := Option.isSome_iff_exists.mp h
  have hanswer : ((o.answerTo (Stmt.fuelFor o.maxIterations) source logger).map Prod.fst).isSome := by
    by_cases hast : o.ast
    · rw [answerTo_fst_of_ast hast]
      rfl
    · rw [answerTo_fst_of_run hast, hn, Program.exec, Option.isSome_map]
      cases Program.ofSource source with
      | error err => rfl
      | ok s =>
        have hrun : s.exec (some n) (Stmt.fuelFor (some n)) .empty ≠ none :=
          Stmt.exec_ne_none (Nat.lt_add_of_pos_right Nat.two_pos) s .empty
        simpa [Option.isSome_iff_ne_none] using hrun
  rw [Option.isSome_map] at hanswer
  rw [respond, respondTo, ← Option.isSome_iff_ne_none, Option.isSome_map]
  exact hanswer

/-- There is at most one response, however much fuel the run is given. -/
theorem Options.Responds.unique {content : Except ReadError String} {r' : Response} (h : o.Responds logger content r)
    (h' : o.Responds logger content r') : r = r' := by
  obtain ⟨n, hn⟩ := h
  obtain ⟨m, hm⟩ := h'
  cases content with
  | error err => exact Option.some.inj (hn.symm.trans hm)
  | ok source =>
    have hmax := respond_mono (Nat.le_max_left n m) hn
    exact Option.some.inj (hmax.symm.trans (respond_mono (Nat.le_max_right n m) hm))

/-- A run that the library answers is answered by the command. -/
theorem Options.exists_responds (hast : ¬ o.ast) (hlogger : logger.Lawful) {verdict : Except Error Unit}
    (h : Program.Answers o.maxIterations source .empty verdict e) :
    ∃ lines, IsLog lines ∧ o.Responds logger (.ok source) ((o.answer (verdict, e)).below lines) := by
  obtain ⟨fuel, hexec⟩ := h
  have hfst := answerTo_fst_of_run hast fuel source logger
  rw [hexec, Option.map_some, Option.map_eq_some_iff] at hfst
  obtain ⟨⟨q, events⟩, hq, rfl⟩ := hfst
  exact ⟨_, hlogger.isLog _ (isLine_of_answerTo hq), fuel, respond_eq_some_iff.mpr ⟨_, events, hq, rfl⟩⟩

/-! ### What is printed -/

theorem printsTree (source : String) (hlines : IsLog lines) : ((treeAnswer source).below lines).PrintsTree source := by
  cases hs : Program.ofSource source with
  | error err =>
    have hanswer : treeAnswer source = failure err.message := by rw [treeAnswer, hs]
    have hnone : ∀ s, Program.ofSource source ≠ .ok s := fun s hok => by
      rw [hs] at hok
      cases hok
    exact {
      code_eq_zero_iff := by
        rw [← Program.exists_ofSource_iff, hanswer]
        exact iff_of_false Nat.one_ne_zero (not_exists.mpr hnone)
      stdout := fun s hok => absurd hok (hnone s)
      json := fun s hok => absurd hok (hnone s)
      recovered := fun s hok => absurd hok (hnone s)
      succeeded := fun hcode => by
        rw [hanswer] at hcode
        cases hcode
      failed := fun _ => ⟨err, hs, hanswer ▸ failed_below_failure (Program.isLine_message_of_ofSource hs) hlines⟩ }
  | ok s =>
    have hanswer : treeAnswer source = success (s.toJson.pretty 0 ++ "\n") := by rw [treeAnswer, hs]
    have hunique : ∀ s', Program.ofSource source = .ok s' → s' = s := fun s' hok => by
      rw [hs] at hok
      cases hok
      rfl
    have hjson : Json.ofText? ((treeAnswer source).below lines).stdout = some s.toJson := by
      rw [hanswer]
      exact Json.ofText?_pretty_newline s.toJson 0
    exact {
      code_eq_zero_iff := by
        rw [← Program.exists_ofSource_iff, hanswer]
        exact iff_of_true rfl ⟨s, hs⟩
      stdout := fun s' hok => by
        rw [hunique s' hok, hanswer]
        rfl
      json := fun s' hok => by rw [hunique s' hok, hjson]
      recovered := fun s' hok => by
        rw [hunique s' hok, hjson]
        exact Stmt.ofJson?_of_same s (.refl _)
      succeeded := fun _ => by
        rw [hanswer]
        exact errorLines?_below_success _ hlines
      failed := fun hcode => by
        rw [hanswer] at hcode
        exact absurd rfl hcode }

theorem printsVariables_failure (h : Program.Answers o.maxIterations source .empty (.error err) e)
    (hlines : IsLog lines) : ((failure err.message).below lines).PrintsVariables o source := by
  have hnone : ∀ a, ¬ Program.Answers o.maxIterations source .empty (.ok ()) a := fun a ha => by
    cases (h.unique ha).1
  exact {
    code_eq_zero_iff := by
      rw [← Program.exists_answers_ok_iff]
      exact iff_of_false Nat.one_ne_zero (not_exists.mpr hnone)
    stdout := fun a ha => absurd ha (hnone a)
    lines := fun _ a ha => absurd ha (hnone a)
    recovered := fun _ a ha => absurd ha (hnone a)
    json := fun _ a ha => absurd ha (hnone a)
    succeeded := fun hcode => absurd hcode Nat.one_ne_zero
    failed := fun _ => ⟨err, e, h, failed_below_failure (Program.isLine_message_of_answers h) hlines⟩ }

theorem printsVariables_success (h : Program.Answers o.maxIterations source .empty (.ok ()) e) (hlines : IsLog lines) :
    ((success (o.render e)).below lines).PrintsVariables o source := by
  obtain ⟨s, hs, hends⟩ := Program.answers_ok_iff.mp h
  -- The names that are left are those of the program, which the grammar makes identifiers.
  have hnames : ∀ x, e.contains x → IsLine x ∧ ':' ∉ x.toList := fun x hx => by
    have hx := Program.spells_of_contains hs hends hx
    exact ⟨hx.isLine, fun hcolon => absurd (hx.1.isNameChar _ hcolon) (by decide)⟩
  have hrender : ¬ o.json → o.render e = variableLines e := fun hjson => if_neg hjson
  have hjsonText : o.json → Json.ofText? (o.render e) = some e.toJson := fun hjson => by
    rw [Options.render, if_pos hjson, Json.ofText?_pretty_newline]
  exact {
    code_eq_zero_iff := by
      rw [← Program.exists_answers_ok_iff]
      exact iff_of_true rfl ⟨e, h⟩
    stdout := fun a ha => by
      rw [← (h.unique ha).2]
      rfl
    lines := fun hjson a ha => by
      rw [← (h.unique ha).2]
      refine ⟨?_, List.pairwise_map.mpr e.sorted⟩
      rw [← lines?_variableLines fun x hx => (hnames x hx).1, ← hrender hjson]
      rfl
    recovered := fun hjson a ha => by
      rw [← (h.unique ha).2, ← readVariables?_variableLines hnames, ← hrender hjson]
      rfl
    json := fun hjson a ha => by
      rw [← (h.unique ha).2]
      change Json.ofText? (o.render e) = some e.toJson ∧ (Json.ofText? (o.render e) >>= Env.ofJson?) = some e
      rw [hjsonText hjson]
      exact ⟨rfl, ofJson?_toJson e⟩
    succeeded := fun _ => errorLines?_below_success _ hlines
    failed := fun hcode => absurd rfl hcode }

/-- Options can be given in any order, with any number of `-v` among them, which are counted up to 255. With `--ast`
    the response to a source text has no part in a run: it prints the tree of the program as JSON, whatever the limit.
    Otherwise, unless the run goes on for ever, there is one response: it prints the variables at the end of the run,
    in the order of their names, on lines or as JSON, from which they can be read back, or else one line with the error
    that the library reports. Under a limit there always is a response. All of this is so for every count of `-v` and
    whatever the lines of the log are: they stand above the report of an error, and the response without them is the
    same for every count. If the count is zero, there are none. -/
theorem all_or_nothing (o : Options) (source : String) {logger : Logger} (hlogger : logger.Lawful) :
    (IsFileName o.file → ∀ count (l : List Argument), l.Perm (o.arguments count) →
      parse (l.flatMap Argument.words) = .ok (.run { o with verbosity := saturated count })) ∧
    (o.ast → ∃ r : Response, r.PrintsTree source ∧ ∀ limit fuel,
      ({ o with maxIterations := limit } : Options).respond fuel (decode source.toUTF8) logger = some r) ∧
    (¬ o.ast → ¬ Program.Diverges o.maxIterations source .empty → ∃ r : Response, r.PrintsVariables o source ∧
      ∀ r', o.Responds logger (decode source.toUTF8) r' ↔ r' = r) ∧
    (o.maxIterations.isSome → o.respond (Stmt.fuelFor o.maxIterations) (decode source.toUTF8) logger ≠ none) ∧
    (∀ verbosity (logger' : Logger), logger'.Lawful → ∀ fuel,
      (({ o with verbosity } : Options).respond fuel (decode source.toUTF8) logger').map Response.unlogged =
        (o.respond fuel (decode source.toUTF8) logger).map Response.unlogged) ∧
    (o.verbosity = 0 → ∀ fuel r, o.respond fuel (decode source.toUTF8) logger = some r → r.logLines? = some []) := by
  rw [decode_toUTF8]
  refine ⟨fun hfile _ _ hl => parse_of_perm hfile hl, fun hast => ?_, fun hast hends => ?_,
    fun hlimit => Options.respond_ne_none hlimit logger source, fun verbosity logger' hlogger' fuel => ?_,
    fun hquiet fuel r hr => ?_⟩
  · obtain ⟨events, h⟩ := Options.exists_answerTo_of_ast hast source logger
    have hlines := hlogger.isLog (.ofVerbosity o.verbosity) (Options.isLine_of_answerTo (h none 0))
    exact ⟨_, printsTree source hlines, fun limit fuel =>
      Options.respond_eq_some_iff.mpr ⟨_, events, h limit fuel, rfl⟩⟩
  · obtain ⟨verdict, e, h⟩ := Program.exists_answers hends
    obtain ⟨lines, hlines, hr⟩ := Options.exists_responds hast hlogger h
    refine ⟨_, ?_, fun r' => ⟨fun hr' => hr'.unique hr, fun heq => heq ▸ hr⟩⟩
    cases verdict with
    | error err => exact printsVariables_failure h hlines
    | ok _ => exact printsVariables_success h hlines
  · rw [Options.respond_unlogged hlogger, Options.respond_unlogged hlogger']
    by_cases hast : o.ast
    · rw [Options.answerTo_fst_of_ast hast, Options.answerTo_fst_of_ast (o := { o with verbosity }) hast]
    · rw [Options.answerTo_fst_of_run hast, Options.answerTo_fst_of_run (o := { o with verbosity }) hast]
      rfl
  · obtain ⟨q, events, -, hlog⟩ := Options.logLines?_of_respond hlogger hr
    rw [hlog, hquiet, show Level.ofVerbosity 0 = .warn from rfl, logger.lines_warn]

theorem all_or_nothing_assignment :
    let o : Options := { file := "a", maxIterations := some 3, verbosity := 2 }
    let e := Env.ofList [("x", 1)]
    let l := [.file "a", .verbose, .maxIterations 3, .verbose]
    let logger : Logger := {
      parsing := 41250
      execution := 2103417
      line := fun n event =>
        "2024-05-01T10:00:00.00" ++ toString n ++ "Z " ++ event.level.name ++ " " ++ event.message }
    logger.Lawful ∧ IsFileName o.file ∧ l.flatMap Argument.words = ["a", "-v", "--max-iterations", "3", "-v"] ∧
      parse ["a", "-v", "--max-iterations", "3", "-v"] = .ok (.run o) ∧ ¬ o.ast ∧
      ¬ Program.Diverges o.maxIterations "x:=1" .empty ∧ Program.Answers o.maxIterations "x:=1" .empty (.ok ()) e ∧
      ∃ r, o.Responds logger (decode "x:=1".toUTF8) r ∧ r.stdout = "x: 1\n" ∧ readVariables? r.stdout = some e := by
  intro o e l logger
  have hlogger : logger.Lawful := {
    isLine := fun n event h => by
      simp only [logger, isLine_append]
      exact ⟨⟨⟨⟨⟨by decide, isLine_repr n⟩, by decide⟩, event.level.isLine_name⟩, by decide⟩, h⟩
    begins := fun n event => by simp [logger] }
  have hfile : IsFileName o.file := by decide
  obtain ⟨hparse, -, hrun, -⟩ := all_or_nothing o "x:=1" hlogger
  have hs : Program.ofSource "x:=1" = .ok (.assign "x" (.const 1)) :=
    Program.ofSource_of_passes (.token rfl (.token rfl (.token rfl .here))) rfl
      (.single (.assign rfl ⟨rfl, rfl⟩ (.single (.term (.const rfl (by decide))))))
  have hdone : (Stmt.assign "x" (.const 1)).exec o.maxIterations 0 .empty = some (.done e) := by decide
  have hends : ¬ Program.Diverges o.maxIterations "x:=1" .empty := by
    rintro ⟨s, hs', hd⟩
    rw [hs] at hs'
    cases hs'
    exact absurd ((hd 0).symm.trans hdone) (by decide)
  have hanswer : Program.Answers o.maxIterations "x:=1" .empty (.ok ()) e :=
    Program.answers_ok_iff.mpr ⟨_, hs, 0, hdone⟩
  obtain ⟨r, hr, hunique⟩ := hrun (by decide) hends
  refine ⟨hlogger, hfile, rfl, hparse hfile 2 l (by decide), by decide, hends, hanswer, r, (hunique r).mpr rfl, ?_,
    hr.recovered (by decide) e hanswer⟩
  rw [hr.stdout e hanswer]
  rfl

end CommandLine

end Imp
