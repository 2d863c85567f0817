import Imp.CommandLine.Output
import Imp.Proofs.Printing.NormalForm
import Imp.Proofs.Program.Messages
import Imp.Proofs.Semantics.Trace

/-! # The log is told apart from the answer

All that is told while a source text is read and run stands on lines of its own, and none of them looks like the
report of an error. So the log can be left out of a response, and what remains is the same whatever was logged. If
nobody asked for a longer log, nothing is logged; if all was asked for, the log tells each value that the run stored. -/

namespace Imp

open Text

variable {source : String} {logger : Logger}

/-! ### Events -/

theorem isLine_durationText (t : Nat) : IsLine (durationText t) := by
  unfold durationText
  split
  · exact isLine_append.mpr ⟨isLine_repr _, by decide⟩
  · exact isLine_append.mpr ⟨isLine_repr _, by decide⟩

theorem Event.isLine_message {event : Event} (h : ∀ x n, event = .assigned x n → IsLine x) : IsLine event.message := by
  cases event with
  | scanned n => exact isLine_append.mpr ⟨isLine_append.mpr ⟨by decide, isLine_repr n⟩, by decide⟩
  | parsed n => exact isLine_append.mpr ⟨isLine_append.mpr ⟨by decide, isLine_repr n⟩, by decide⟩
  | parseStopped i => exact isLine_append.mpr ⟨by decide, isLine_repr i⟩
  | parsingTook t => exact isLine_append.mpr ⟨isLine_append.mpr ⟨by decide, isLine_durationText t⟩, by decide⟩
  | executing limit =>
    cases limit with
    | none => decide
    | some n => exact isLine_append.mpr ⟨isLine_append.mpr ⟨by decide, isLine_repr _⟩, by decide⟩
  | assigned x n => exact isLine_append.mpr ⟨isLine_append.mpr ⟨h x n rfl, by decide⟩, isLine_toInt n⟩
  | loopEnded n => exact isLine_append.mpr ⟨isLine_append.mpr ⟨by decide, isLine_repr n⟩, by decide⟩
  | finished n => exact isLine_append.mpr ⟨isLine_append.mpr ⟨by decide, isLine_repr n⟩, by decide⟩
  | executionTook t => exact isLine_append.mpr ⟨isLine_append.mpr ⟨by decide, isLine_durationText t⟩, by decide⟩

theorem Level.isLine_name (level : Level) : IsLine level.name := by cases level <;> decide

/-- No event matters so much that it is logged unasked. -/
theorem Event.warn_lt_level (event : Event) : Level.warn.rank < event.level.rank := by
  cases event <;> exact of_decide_eq_true rfl

theorem Event.level_le_trace (event : Event) : event.level.rank ≤ Level.trace.rank := by
  cases event <;> exact of_decide_eq_true rfl

/-! ### Lines -/

/-- Each line is one, and none looks like the report of an error. -/
def IsLog (lines : List String) : Prop := ∀ line ∈ lines, IsLine line ∧ ¬ CommandLine.isErrorLine line

/-- The lines that are written if nothing is known of the time. -/
theorem Logger.lawful_default : Logger.Lawful {} where
  isLine _ event h := isLine_append.mpr ⟨isLine_append.mpr ⟨event.level.isLine_name, by decide⟩, h⟩
  begins _ event := by
    cases event <;> simp [Event.level, Level.name]

theorem Logger.lines_warn (logger : Logger) (events : List Event) : logger.lines .warn events = [] := by
  have hfilter : (events.filter fun event => event.level.rank ≤ Level.warn.rank) = [] :=
    List.filter_eq_nil_iff.mpr fun event _ h => absurd event.warn_lt_level (Nat.not_lt.mpr (of_decide_eq_true h))
  rw [lines, hfilter]
  rfl

/-- At the deepest level there is a line for every event. -/
theorem Logger.lines_trace (logger : Logger) (events : List Event) :
    logger.lines .trace events = events.mapIdx logger.line := by
  have hfilter : (events.filter fun event => event.level.rank ≤ Level.trace.rank) = events :=
    List.filter_eq_self.mpr fun event _ => decide_eq_true event.level_le_trace
  rw [lines, hfilter]

theorem CommandLine.not_isErrorLine {line : String} (h : line.toList.head? ≠ some 'E') : ¬ isErrorLine line := by
  intro herror
  obtain ⟨rest, hrest⟩ := List.isPrefixOf_iff_prefix.mp herror
  rw [← hrest] at h
  exact h rfl

theorem Logger.Lawful.isLog (h : logger.Lawful) (deepest : Level) {events : List Event}
    (hevents : ∀ event ∈ events, IsLine event.message) : IsLog (logger.lines deepest events) := by
  intro line hline
  obtain ⟨n, hn, rfl⟩ := List.mem_mapIdx.mp hline
  have hmessage := hevents _ (List.mem_filter.mp (List.getElem_mem hn)).1
  exact ⟨h.isLine n _ hmessage, CommandLine.not_isErrorLine (h.begins n _)⟩

/-! ### Reading and running -/

theorem Program.read_fst (source : String) : (read source).1 = ofSource source := by
  unfold read ofSource
  cases tokenize source with
  | error err => rfl
  | ok ts =>
    change _ = ofTokens ts
    dsimp only
    cases ofTokens ts <;> rfl

theorem Program.read_eq {r : Except Error Stmt} (h : ofSource source = r) : read source = (r, (read source).2) :=
  Prod.ext ((read_fst source).trans h) rfl

/-- Only a run tells of storing. -/
theorem Program.ne_assigned_of_read : ∀ event ∈ (read source).2, ∀ x n, event ≠ .assigned x n := by
  unfold read
  cases tokenize source with
  | error err => simp
  | ok ts =>
    dsimp only
    cases ofTokens ts with
    | ok s => simp
    | error err => split <;> simp

theorem Program.isLine_of_read : ∀ event ∈ (read source).2, IsLine event.message := fun event hevent =>
  event.isLine_message fun x n heq => absurd heq (ne_assigned_of_read event hevent x n)

namespace CommandLine

variable {o : Options} {s : Stmt} {fuel m n : Nat} {r : Response} {events : List Event}

theorem Options.run_fst (o : Options) (fuel : Nat) (s : Stmt) :
    (o.run fuel s).map Prod.fst = s.exec o.maxIterations fuel .empty := by
  unfold run
  split
  · rw [Option.map_map, ← Stmt.trace_exec o.maxIterations fuel s .empty []]
    rfl
  · rw [Option.map_map]
    exact Option.map_id'

theorem Options.run_mono {a : Outcome × List Event} (hnm : n ≤ m) (h : o.run n s = some a) : o.run m s = some a := by
  unfold run at h ⊢
  split at h
  · next htrace =>
    obtain ⟨b, hb, rfl⟩ := Option.map_eq_some_iff.mp h
    rw [if_pos htrace, Stmt.trace_mono hnm hb]
    rfl
  · next htrace =>
    obtain ⟨b, hb, rfl⟩ := Option.map_eq_some_iff.mp h
    rw [if_neg htrace, Stmt.exec_mono hnm hb]
    rfl

theorem Options.leads_of_run {outcome : Outcome} (htrace : Level.ofVerbosity o.verbosity = .trace)
    (h : o.run fuel s = some (outcome, events)) : Leads s.assigned .empty events.reverse outcome.env := by
  rw [run, if_pos htrace] at h
  obtain ⟨⟨outcome, log⟩, hlog, heq⟩ := Option.map_eq_some_iff.mp h
  cases heq
  obtain ⟨new, rfl, hleads⟩ := Stmt.trace_leads hlog
  rwa [List.append_nil, List.reverse_reverse]

theorem Options.isLine_of_run {outcome : Outcome} (hs : Program.ofSource source = .ok s)
    (h : o.run fuel s = some (outcome, events)) : ∀ event ∈ events, IsLine event.message := by
  by_cases htrace : Level.ofVerbosity o.verbosity = .trace
  · have hleads := leads_of_run htrace h
    intro event hevent
    refine event.isLine_message fun x n heq => ?_
    rcases hleads.tells event (List.mem_reverse.mpr hevent) with ⟨k, rfl⟩ | ⟨y, hy, k, rfl⟩
    · cases heq
    · cases heq
      -- A name that the program assigns is one of its names, and these are identifiers.
      exact ((Program.isNormal hs).names x (s.assigned_subset_names x hy)).isLine
  · rw [run, if_neg htrace] at h
    obtain ⟨outcome, -, heq⟩ := Option.map_eq_some_iff.mp h
    cases heq
    exact fun event hevent => absurd hevent List.not_mem_nil

theorem Level.ofVerbosity_eq_trace {verbosity : UInt8} (h : 3 ≤ verbosity) : Level.ofVerbosity verbosity = .trace := by
  have hbound : 3 ≤ verbosity.toNat := UInt8.le_iff_toNat_le.mp h
  have hless : ∀ k : UInt8, k.toNat < 3 → verbosity ≠ k := fun k hk heq => by
    rw [heq] at hbound
    omega
  rw [Level.ofVerbosity, if_neg (hless 0 (by decide)), if_neg (hless 1 (by decide)), if_neg (hless 2 (by decide))]

/-- With three `-v` and more, all that a run stores is told, in the order in which it is stored. -/
theorem Options.replay_of_run (hverbose : 3 ≤ o.verbosity) {outcome : Outcome}
    (h : o.run fuel s = some (outcome, events)) :
    events.foldl (fun e event => event.replay e) .empty = outcome.env := by
  have hleads := leads_of_run (Level.ofVerbosity_eq_trace hverbose) h
  rw [← hleads.replay, List.foldr_reverse]

/-! ### Answers -/

variable {err : Error}

theorem Options.answerTo_of_error (hs : Program.ofSource source = .error err) :
    o.answerTo fuel source logger = some (failure err.message, (Program.read source).2) := by
  rw [answerTo, Program.read_eq hs]

/-- What is told while a source text is read, and that this is done. -/
def reading (source : String) (logger : Logger) : List Event :=
  (Program.read source).2 ++ [.parsingTook logger.parsing]

theorem Options.answerTo_of_ast (hast : o.ast) (hs : Program.ofSource source = .ok s) :
    o.answerTo fuel source logger = some (success (s.toJson.pretty 0 ++ "\n"), reading source logger) := by
  rw [answerTo, reading, Program.read_eq hs]
  exact if_pos hast

theorem Options.answerTo_of_run (hast : ¬ o.ast) (hs : Program.ofSource source = .ok s) :
    o.answerTo fuel source logger = (o.run fuel s).map fun a => ((o.finish logger a.1).1,
      reading source logger ++ .executing o.maxIterations :: a.2 ++ (o.finish logger a.1).2) := by
  rw [answerTo, reading, Program.read_eq hs]
  exact if_neg hast

theorem Options.answerTo_mono {a : Response × List Event} (hnm : n ≤ m) (h : o.answerTo n source logger = some a) :
    o.answerTo m source logger = some a := by
  cases hs : Program.ofSource source with
  | error err => rwa [answerTo_of_error hs] at h ⊢
  | ok s =>
    by_cases hast : o.ast
    · rwa [answerTo_of_ast hast hs] at h ⊢
    · rw [answerTo_of_run hast hs] at h ⊢
      obtain ⟨b, hb, rfl⟩ := Option.map_eq_some_iff.mp h
      rw [run_mono hnm hb]
      rfl

theorem Options.isLine_of_answerTo (h : o.answerTo fuel source logger = some (r, events)) :
    ∀ event ∈ events, IsLine event.message := by
  have hread : ∀ event ∈ reading source logger, IsLine event.message :=
    List.forall_mem_append.mpr ⟨Program.isLine_of_read, List.forall_mem_singleton.mpr (Event.isLine_message nofun)⟩
  cases hs : Program.ofSource source with
  | error err =>
    rw [answerTo_of_error hs] at h
    cases h
    exact Program.isLine_of_read
  | ok s =>
    by_cases hast : o.ast
    · rw [answerTo_of_ast hast hs] at h
      cases h
      exact hread
    · rw [answerTo_of_run hast hs] at h
      obtain ⟨⟨outcome, running⟩, hrun, heq⟩ := Option.map_eq_some_iff.mp h
      cases heq
      have hend : ∀ event ∈ (o.finish logger outcome).2, IsLine event.message := by
        cases outcome with
        | done e => simp [finish, Event.isLine_message]
        | stopped f e => simp [finish]
      have hstart : IsLine (Event.executing o.maxIterations).message := Event.isLine_message (by simp)
      simp only [List.forall_mem_append, List.forall_mem_cons]
      exact ⟨⟨hread, hstart, isLine_of_run hs hrun⟩, hend⟩

/-- The answer prints on standard output, or it reports on one line why the command failed. -/
theorem Options.answerTo_reports (h : o.answerTo fuel source logger = some (r, events)) :
    (∃ text, r = success text) ∨ ∃ reason, IsLine reason ∧ r = failure reason := by
  cases hs : Program.ofSource source with
  | error err =>
    rw [answerTo_of_error hs] at h
    cases h
    exact .inr ⟨_, Program.isLine_message_of_ofSource hs, rfl⟩
  | ok s =>
    by_cases hast : o.ast
    · rw [answerTo_of_ast hast hs] at h
      cases h
      exact .inl ⟨_, rfl⟩
    · rw [answerTo_of_run hast hs] at h
      obtain ⟨⟨outcome, running⟩, -, heq⟩ := Option.map_eq_some_iff.mp h
      cases heq
      cases outcome with
      | done e => exact .inl ⟨_, rfl⟩
      | stopped f e => exact .inr ⟨_, f.isLine_message, rfl⟩

/-- What is answered with `--ast`, and what is told on the way, has no part in a run. -/
theorem Options.exists_answerTo_of_ast (hast : o.ast) (source : String) (logger : Logger) : ∃ events, ∀ limit fuel,
    ({ o with maxIterations := limit } : Options).answerTo fuel source logger = some (treeAnswer source, events) := by
  unfold treeAnswer
  cases hs : Program.ofSource source with
  | error err => exact ⟨_, fun _ _ => answerTo_of_error hs⟩
  | ok s => exact ⟨_, fun _ _ => answerTo_of_ast hast hs⟩

theorem Options.answerTo_fst_of_ast (hast : o.ast) (fuel : Nat) (source : String) (logger : Logger) :
    (o.answerTo fuel source logger).map Prod.fst = some (treeAnswer source) := by
  obtain ⟨events, h⟩ := exists_answerTo_of_ast hast source logger
  exact congrArg (Option.map Prod.fst) (h o.maxIterations fuel)

/-- What is answered without `--ast` is what the library answers with the same fuel, whatever is logged. -/
theorem Options.answerTo_fst_of_run (hast : ¬ o.ast) (fuel : Nat) (source : String) (logger : Logger) :
    (o.answerTo fuel source logger).map Prod.fst = (Program.exec o.maxIterations fuel source .empty).map o.answer := by
  unfold Program.exec
  cases hs : Program.ofSource source with
  | error err =>
    rw [answerTo_of_error hs]
    rfl
  | ok s =>
    dsimp only
    rw [answerTo_of_run hast hs, ← run_fst, Option.map_map, Option.map_map, Option.map_map]
    refine congrArg (fun g => Option.map g _) (funext fun ⟨outcome, _⟩ => ?_)
    cases outcome <;> rfl

/-- With three `-v` and more, who stores anew what is told comes to where the library does with the same fuel. -/
theorem Options.replay_of_answerTo (hast : ¬ o.ast) (hverbose : 3 ≤ o.verbosity)
    (h : o.answerTo fuel source logger = some (r, events)) :
    (Program.exec o.maxIterations fuel source .empty).map Prod.snd =
      some (events.foldl (fun e event => event.replay e) .empty) := by
  unfold Program.exec
  cases hs : Program.ofSource source with
  | error err =>
    rw [answerTo_of_error hs] at h
    cases h
    rw [Event.foldl_replay_of_ne_assigned Program.ne_assigned_of_read]
    rfl
  | ok s =>
    rw [answerTo_of_run hast hs] at h
    obtain ⟨⟨outcome, running⟩, hrun, heq⟩ := Option.map_eq_some_iff.mp h
    cases heq
    have hreading : ∀ event ∈ reading source logger ++ [.executing o.maxIterations], ∀ x n, event ≠ .assigned x n := by
      simp only [reading, List.forall_mem_append, List.forall_mem_singleton]
      exact ⟨⟨Program.ne_assigned_of_read, by simp⟩, by simp⟩
    have hending : ∀ event ∈ (o.finish logger outcome).2, ∀ x n, event ≠ .assigned x n := by
      cases outcome with
      | done e => simp [finish]
      | stopped f e => simp [finish]
    have hexec : s.exec o.maxIterations fuel .empty = some outcome := by
      rw [← run_fst, hrun]
      rfl
    rw [List.append_cons, List.foldl_append, List.foldl_append, Event.foldl_replay_of_ne_assigned hreading,
      replay_of_run hverbose hrun, Event.foldl_replay_of_ne_assigned hending]
    dsimp only
    rw [hexec]
    rfl

/-! ### Leaving the log out -/

variable {lines : List String}

theorem Response.errorLines?_below (hlines : IsLog lines) : (r.below lines).errorLines? = r.errorLines? := by
  have hnone : lines.filter isErrorLine = [] := List.filter_eq_nil_iff.mpr fun line hline => (hlines line hline).2
  unfold errorLines? below
  rw [lines?_join_append (fun line hline => (hlines line hline).1), Option.map_map]
  simp only [Function.comp_def, List.filter_append, hnone, List.nil_append]

theorem Response.unlogged_below (hlines : IsLog lines) : (r.below lines).unlogged = r.unlogged := by
  rw [unlogged, unlogged, errorLines?_below hlines]
  rfl

/-- A response is an answer below the lines of a log. -/
theorem Options.respond_eq_some_iff : o.respond fuel (.ok source) logger = some r ↔
    ∃ q events, o.answerTo fuel source logger = some (q, events) ∧
      q.below (logger.lines (.ofVerbosity o.verbosity) events) = r := by
  simp only [respond, respondTo, Option.map_eq_some_iff, Prod.exists]

theorem Options.respond_mono (hnm : n ≤ m) (h : o.respond n (.ok source) logger = some r) :
    o.respond m (.ok source) logger = some r := by
  obtain ⟨q, events, hq, rfl⟩ := respond_eq_some_iff.mp h
  exact respond_eq_some_iff.mpr ⟨q, events, answerTo_mono hnm hq, rfl⟩

/-- The log left out, a response is the answer. -/
theorem Options.respond_unlogged (hlogger : logger.Lawful) (o : Options) (fuel : Nat) (source : String) :
    (o.respond fuel (.ok source) logger).map Response.unlogged =
      ((o.answerTo fuel source logger).map Prod.fst).map Response.unlogged := by
  rw [respond, respondTo, Option.map_map, Option.map_map]
  cases h : o.answerTo fuel source logger with
  | none => rfl
  | some a =>
    obtain ⟨q, events⟩ := a
    exact congrArg some (Response.unlogged_below (hlogger.isLog _ (isLine_of_answerTo h)))

end CommandLine

end Imp
