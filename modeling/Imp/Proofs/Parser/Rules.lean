import Imp.Parser.Finished
import Imp.Proofs.Parser.Chain

/-! # Rules for answers

The answer of a parser in terms of the answers of its parts, and without fuel. With enough fuel every run
of a parser at a position gives its answer there, also if that is unfinished; so what holds of all runs
with much fuel holds of answers. A loop goes round any number of times, so the answer of a repetition or of a
chain is a derivation of its own, with a rule for each way in which a round can go. -/

namespace Imp.Parser

variable {ν : Type} {ty : ν → Type} {α β : Type} {defs : Family ty} {ts : Array Token} {p : Parser ty α} {pos : Nat}

/-! ### Runs with enough fuel -/

theorem Gives.answer_eq {a : Answer α} (h : Gives defs ts p pos a) : answer defs ts p pos = a := by
  have hex : ∃ a, Gives defs ts p pos a := ⟨a, h⟩
  rw [answer, dif_pos hex]
  exact hex.choose_spec.unique h

/-- A run that is finished gives the answer. -/
theorem answer_eq_run {n : Nat} (h : p.run defs ts n pos ≠ .unfinished) :
    answer defs ts p pos = p.run defs ts n pos :=
  Gives.answer_eq ⟨h, n, rfl⟩

theorem answer_of_run {n : Nat} {a : Answer α} (h : p.run defs ts n pos = a) (ha : a ≠ .unfinished) :
    answer defs ts p pos = a := by
  subst h
  exact answer_eq_run ha

/-- A run gives the answer, or its fuel was used up. -/
theorem run_upto_answer (n : Nat) (p : Parser ty α) (pos : Nat) :
    (p.run defs ts n pos).Upto (answer defs ts p pos) := by
  by_cases h : p.run defs ts n pos = .unfinished
  · exact Or.inl h
  · exact Or.inr (answer_eq_run h).symm

/-- Every run with enough fuel gives the answer. -/
theorem exists_fuel (defs : Family ty) (ts : Array Token) (p : Parser ty α) (pos : Nat) :
    ∃ n, ∀ m, n ≤ m → p.run defs ts m pos = answer defs ts p pos := by
  by_cases h : ∃ n, p.run defs ts n pos ≠ .unfinished
  · obtain ⟨n, hn⟩ := h
    exact ⟨n, fun m hm => (Gives.of_le hm hn).answer_eq.symm⟩
  · have hnone : ¬ ∃ a, Gives defs ts p pos a := fun ⟨a, ha, n, hn⟩ => h ⟨n, hn ▸ ha⟩
    refine ⟨0, fun m _ => ?_⟩
    rw [answer, dif_neg hnone]
    exact Classical.byContradiction fun hm => h ⟨m, hm⟩

theorem exists_run (defs : Family ty) (ts : Array Token) (p : Parser ty α) (pos : Nat) :
    ∃ n, p.run defs ts n pos = answer defs ts p pos := by
  obtain ⟨n, hn⟩ := exists_fuel defs ts p pos
  exact ⟨n, hn n (Nat.le_refl n)⟩

/-- A parser is finished where its answer is. -/
theorem halts_iff_answer : Halts defs ts p pos ↔ answer defs ts p pos ≠ .unfinished := by
  constructor
  · rintro ⟨n, hn⟩
    rwa [answer_eq_run hn]
  · intro h
    obtain ⟨n, hn⟩ := exists_run defs ts p pos
    exact ⟨n, by rwa [hn]⟩

/-! ### Combinations -/

theorem answer_token (text : String) (kind : Kind) :
    answer defs ts (token text kind) pos = take ts (fun t => t.text = text ∧ t.kind = kind) pos :=
  answer_of_run (n := 0) rfl (take_finished ts _ pos)

theorem answer_ofKind (kind : Kind) : answer defs ts (ofKind kind) pos = take ts (fun t => t.kind = kind) pos :=
  answer_of_run (n := 0) rfl (take_finished ts _ pos)

theorem answer_fail : answer defs ts (fail : Parser ty α) pos = .failure := answer_of_run (n := 0) rfl nofun

/-- A parser whose runs are made of those of one part. -/
theorem answer_of_part {r : Parser ty β} (f : Answer α → Answer β)
    (h : ∀ n, r.run defs ts n pos = f (p.run defs ts n pos)) : answer defs ts r pos = f (answer defs ts p pos) := by
  obtain ⟨n, hn⟩ := exists_fuel defs ts r pos
  obtain ⟨n', hn'⟩ := exists_fuel defs ts p pos
  rw [← hn (n + n') (Nat.le_add_right n n'), h, hn' (n + n') (Nat.le_add_left n' n)]

theorem answer_opt (p : Parser ty α) : answer defs ts (opt p) pos = (answer defs ts p pos).optional pos :=
  answer_of_part (Answer.optional pos) fun _ => rfl

theorem answer_map (f : α → β) (p : Parser ty α) : answer defs ts (map f p) pos = (answer defs ts p pos).map f :=
  answer_of_part (Answer.map f) fun _ => rfl

theorem answer_filterMap (f : α → Option β) (p : Parser ty α) :
    answer defs ts (filterMap f p) pos = (answer defs ts p pos).filterMap f :=
  answer_of_part (Answer.filterMap f) fun _ => rfl

theorem answer_phrase (p : Parser ty α) :
    answer defs ts (phrase p) pos = (answer defs ts p pos).endingAt ts.size :=
  answer_of_part (Answer.endingAt ts.size) fun _ => rfl

theorem answer_seq (p : Parser ty α) (r : Parser ty β) : answer defs ts (seq p r) pos =
    (answer defs ts p pos).bind fun v mid => (answer defs ts r mid).map (v, ·) := by
  obtain ⟨n, hn⟩ := exists_fuel defs ts (seq p r) pos
  obtain ⟨n', hn'⟩ := exists_fuel defs ts p pos
  cases hp : answer defs ts p pos with
  | success v mid =>
    obtain ⟨n'', hn''⟩ := exists_fuel defs ts r mid
    have hpart := hn' (n + n' + n'') (by omega)
    rw [← hn (n + n' + n'') (by omega), run, runWith, ← run, hpart, hp, Answer.bind, Answer.bind,
      ← hn'' (n + n' + n'') (by omega)]
    rfl
  | _ =>
    have hpart := hn' (n + n') (by omega)
    rw [← hn (n + n') (by omega), run, runWith, ← run, hpart, hp]
    rfl

theorem answer_alt (p r : Parser ty α) :
    answer defs ts (alt p r) pos = (answer defs ts p pos).orElse fun _ => answer defs ts r pos := by
  obtain ⟨n, hn⟩ := exists_fuel defs ts (alt p r) pos
  obtain ⟨n', hn'⟩ := exists_fuel defs ts p pos
  obtain ⟨n'', hn''⟩ := exists_fuel defs ts r pos
  rw [← hn (n + n' + n'') (by omega), ← hn' (n + n' + n'') (by omega), ← hn'' (n + n' + n'') (by omega)]
  rfl

/-- A call gives what the definition does. -/
theorem answer_call (k : ν) : answer defs ts (call k) pos = answer defs ts (defs k) pos := by
  obtain ⟨n, hn⟩ := exists_fuel defs ts (call k) pos
  obtain ⟨n', hn'⟩ := exists_fuel defs ts (defs k) pos
  rw [← hn (n + n' + 1) (by omega), ← hn' (n + n') (by omega)]
  rfl

/-! ### Repetitions -/

/-- A step is repeated until it fails, and comes to these values and this position. -/
inductive RepeatAt (step : Nat → Answer α) : Nat → List α → Nat → Prop where
  | done {pos : Nat} : step pos = .failure → RepeatAt step pos [] pos
  | more {pos next stop : Nat} {v : α} {vs : List α} : step pos = .success v next → RepeatAt step next vs stop →
      RepeatAt step pos (v :: vs) stop

variable {vs : List α} {q : Nat}

/-- A repetition stops where the step fails, and else goes on behind it. -/
theorem repeatRun_succ_cases {step : Nat → Answer α} {n : Nat} (h : repeatRun step (n + 1) pos = .success vs q) :
    (step pos = .failure ∧ vs = [] ∧ q = pos) ∨
    ∃ v next ws, step pos = .success v next ∧ repeatRun step n next = .success ws q ∧ vs = v :: ws := by
  cases hs : step pos with
  | unfinished => simp [repeatRun, hs] at h
  | failure =>
    have hstop : repeatRun step (n + 1) pos = .success [] pos := by simp only [repeatRun, hs]
    cases hstop.symm.trans h
    exact Or.inl ⟨rfl, rfl, rfl⟩
  | success v next =>
    have hround : repeatRun step (n + 1) pos = (repeatRun step n next).map (v :: ·) := by simp only [repeatRun, hs]
    obtain ⟨ws, hrest, hvs⟩ := Answer.map_eq_success.mp (hround.symm.trans h)
    exact Or.inr ⟨v, next, ws, rfl, hrest, hvs⟩

theorem RepeatAt.of_repeatRun {step step' : Nat → Answer α} (hs : ∀ pos, (step pos).Upto (step' pos)) {n : Nat}
    (h : repeatRun step n pos = .success vs q) : RepeatAt step' pos vs q := by
  induction n generalizing pos vs with
  | zero => cases h
  | succ n ih =>
    rcases repeatRun_succ_cases h with ⟨hp, rfl, rfl⟩ | ⟨v, next, ws, hp, hrest, rfl⟩
    · exact .done ((hs _).of_finished hp nofun)
    · exact .more ((hs _).of_finished hp nofun) (ih hrest)

theorem RepeatAt.repeatRun (h : RepeatAt (answer defs ts p) pos vs q) :
    ∃ n, ∀ m k, n ≤ m → n ≤ k → Parser.repeatRun (p.run defs ts m) k pos = .success vs q := by
  induction h with
  | @done pos hp =>
    obtain ⟨n, hn⟩ := exists_fuel defs ts p pos
    refine ⟨n + 1, fun m k hm hk => ?_⟩
    obtain ⟨k, rfl⟩ := Nat.exists_eq_add_of_lt hk
    simp only [Parser.repeatRun, (hn m (by omega)).trans hp]
  | @more pos _ _ _ _ hp _ ih =>
    obtain ⟨n, hn⟩ := exists_fuel defs ts p pos
    obtain ⟨n', hn'⟩ := ih
    refine ⟨n + n' + 1, fun m k hm hk => ?_⟩
    obtain ⟨k, rfl⟩ := Nat.exists_eq_add_of_lt hk
    simp only [Parser.repeatRun, (hn m (by omega)).trans hp]
    rw [hn' m _ (by omega) (by omega)]
    rfl

theorem repeatRun_ne_failure {step : Nat → Answer α} {n : Nat} : repeatRun step n pos ≠ .failure := by
  induction n generalizing pos with
  | zero => exact nofun
  | succ n ih =>
    cases hs : step pos with
    | unfinished => simp only [repeatRun, hs, ne_eq, reduceCtorEq, not_false_eq_true]
    | failure => simp only [repeatRun, hs, ne_eq, reduceCtorEq, not_false_eq_true]
    | success v next =>
      simp only [repeatRun, hs]
      exact fun h => ih (Answer.map_eq_failure.mp h)

theorem answer_rep_ne_failure : answer defs ts (rep p) pos ≠ .failure := by
  obtain ⟨n, hn⟩ := exists_run defs ts (rep p) pos
  rw [← hn]
  exact repeatRun_ne_failure

theorem answer_rep_eq_success :
    answer defs ts (rep p) pos = .success vs q ↔ RepeatAt (answer defs ts p) pos vs q := by
  constructor
  · intro h
    obtain ⟨n, hn⟩ := exists_run defs ts (rep p) pos
    exact .of_repeatRun (run_upto_answer n p) (hn.trans h)
  · intro h
    obtain ⟨n, hn⟩ := h.repeatRun
    exact answer_of_run (n := n) (hn n n (Nat.le_refl n) (Nat.le_refl n)) nofun

/-! ### Chains -/

/-- Behind what a chain has joined so far it goes on with separators and operands, and comes to this value
    and this position. -/
inductive ChainAt (operand : Nat → Answer α) (separator : Nat → Answer (α → α → α)) : α → Nat → α → Nat → Prop where
  | absent {left : α} {pos : Nat} : separator pos = .failure → ChainAt operand separator left pos left pos
  | dangling {left : α} {join : α → α → α} {pos mid : Nat} : separator pos = .success join mid →
      operand mid = .failure → ChainAt operand separator left pos left pos
  | round {left right v : α} {join : α → α → α} {pos mid next stop : Nat} : separator pos = .success join mid →
      operand mid = .success right next → ChainAt operand separator (join left right) next v stop →
      ChainAt operand separator left pos v stop

variable {s : Parser ty (α → α → α)} {left v : α} {stop : Nat}

theorem ChainAt.of_chainRun {operand operand' : Nat → Answer α} {separator separator' : Nat → Answer (α → α → α)}
    (ho : ∀ pos, (operand pos).Upto (operand' pos)) (hs : ∀ pos, (separator pos).Upto (separator' pos)) {n : Nat}
    (h : chainRun operand separator n left pos = .success v stop) : ChainAt operand' separator' left pos v stop := by
  induction n generalizing left pos with
  | zero => cases h
  | succ n ih =>
    rcases chainRun_succ_cases h with ⟨hsep | ⟨join, mid, hsep, hop⟩, rfl, rfl⟩ | ⟨join, mid, right, next, hsep, hop, h⟩
    · exact .absent ((hs _).of_finished hsep nofun)
    · exact .dangling ((hs _).of_finished hsep nofun) ((ho _).of_finished hop nofun)
    · exact .round ((hs _).of_finished hsep nofun) ((ho _).of_finished hop nofun) (ih h)

theorem ChainAt.chainRun (h : ChainAt (answer defs ts p) (answer defs ts s) left pos v stop) :
    ∃ n, ∀ m k, n ≤ m → n ≤ k →
      Parser.chainRun (p.run defs ts m) (s.run defs ts m) k left pos = .success v stop := by
  induction h with
  | @absent _ pos hs =>
    obtain ⟨n, hn⟩ := exists_fuel defs ts s pos
    refine ⟨n + 1, fun m k hm hk => ?_⟩
    obtain ⟨k, rfl⟩ := Nat.exists_eq_add_of_lt hk
    exact chainRun_of_absent ((hn m (by omega)).trans hs)
  | @dangling _ _ pos mid hs ho =>
    obtain ⟨n, hn⟩ := exists_fuel defs ts s pos
    obtain ⟨n', hn'⟩ := exists_fuel defs ts p mid
    refine ⟨n + n' + 1, fun m k hm hk => ?_⟩
    obtain ⟨k, rfl⟩ := Nat.exists_eq_add_of_lt hk
    exact chainRun_of_dangling ((hn m (by omega)).trans hs) ((hn' m (by omega)).trans ho)
  | @round _ _ _ _ pos mid _ _ hs ho _ ih =>
    obtain ⟨n, hn⟩ := exists_fuel defs ts s pos
    obtain ⟨n', hn'⟩ := exists_fuel defs ts p mid
    obtain ⟨n'', hn''⟩ := ih
    refine ⟨n + n' + n'' + 1, fun m k hm hk => ?_⟩
    obtain ⟨k, rfl⟩ := Nat.exists_eq_add_of_lt hk
    rw [chainRun_of_round ((hn m (by omega)).trans hs) ((hn' m (by omega)).trans ho)]
    exact hn'' m _ (by omega) (by omega)

theorem answer_chainLeft_eq_success : answer defs ts (chainLeft p s) pos = .success v stop ↔
    ∃ left mid, answer defs ts p pos = .success left mid ∧
      ChainAt (answer defs ts p) (answer defs ts s) left mid v stop := by
  constructor
  · intro h
    obtain ⟨n, hn⟩ := exists_run defs ts (chainLeft p s) pos
    obtain ⟨left, mid, hp, hc⟩ := Answer.bind_eq_success.mp (hn.trans h)
    exact ⟨left, mid, answer_of_run hp nofun, .of_chainRun (run_upto_answer n p) (run_upto_answer n s) hc⟩
  · rintro ⟨left, mid, hp, hc⟩
    obtain ⟨n, hn⟩ := exists_fuel defs ts p pos
    obtain ⟨n', hn'⟩ := hc.chainRun
    have hle : n ≤ max n n' := Nat.le_max_left n n'
    have hle' : n' ≤ max n n' := Nat.le_max_right n n'
    refine answer_of_run (n := max n n') (Answer.bind_eq_success.mpr ⟨left, mid, ?_, hn' _ _ hle' hle'⟩) nofun
    exact (hn _ hle).trans hp

theorem answer_chainLeft_eq_failure :
    answer defs ts (chainLeft p s) pos = .failure ↔ answer defs ts p pos = .failure := by
  constructor
  · intro h
    obtain ⟨n, hn⟩ := exists_run defs ts (chainLeft p s) pos
    rcases Answer.bind_eq_failure.mp (hn.trans h) with hp | ⟨left, mid, -, hc⟩
    · exact answer_of_run hp nofun
    · exact absurd hc chainRun_ne_failure
  · intro h
    obtain ⟨n, hn⟩ := exists_run defs ts p pos
    exact answer_of_run (n := n) (Answer.bind_eq_failure.mpr (Or.inl (hn.trans h))) nofun

end Imp.Parser
