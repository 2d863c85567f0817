import Imp.Proofs.Parser.Rules
import Imp.Syntax.Grammar

/-! # Parsers do not look back

What a parser gives at a position depends on the tokens from there on. Other tokens in front of them move it and
change nothing else: every run goes through the same answers, each as much further on as there are tokens in front.
A phrase compares its end with the end of the tokens, and both of them are moved. -/

namespace Imp

/-! ### Answers further on -/

/-- The answer with its position `n` further on. -/
def Answer.further {α : Type} (n : Nat) (a : Answer α) : Answer α := a.bind fun v next => .success v (next + n)

/-- From `n` further on the second run does as the first, and gives what that gives `n` further on. -/
def Moved {α : Type} (n : Nat) (f g : Nat → Answer α) : Prop := ∀ pos, g (pos + n) = (f pos).further n

namespace Answer

variable {α β : Type} {n pos q : Nat} {a : Answer α} {v : α}

theorem further_eq_success : a.further n = .success v q ↔ ∃ next, a = .success v next ∧ q = next + n := by
  unfold further
  rw [bind_eq_success]
  refine ⟨fun ⟨w, next, ha, h⟩ => ?_, fun ⟨next, ha, hq⟩ => ⟨v, next, ha, by rw [hq]⟩⟩
  cases h
  exact ⟨next, ha, rfl⟩

theorem further_bind {f g : α → Nat → Answer β} (h : ∀ v next, g v (next + n) = (f v next).further n) :
    (a.further n).bind g = (a.bind f).further n := by
  cases a with
  | success v next => exact h v next
  | _ => rfl

theorem further_map (f : α → β) : (a.further n).map f = (a.map f).further n := further_bind fun _ _ => rfl

theorem further_filterMap (f : α → Option β) : (a.further n).filterMap f = (a.filterMap f).further n :=
  further_bind fun v _ => by cases f v <;> rfl

theorem further_endingAt (stop : Nat) : (a.further n).endingAt (stop + n) = (a.endingAt stop).further n := by
  refine further_bind fun v next => ?_
  by_cases h : next = stop
  · rw [if_pos h, if_pos (congrArg (· + n) h)]
    rfl
  · rw [if_neg h, if_neg fun hn => h (Nat.add_right_cancel hn)]
    rfl

theorem further_orElse {f g : Unit → Answer α} (h : g () = (f ()).further n) :
    (a.further n).orElse g = (a.orElse f).further n := by
  cases a with
  | failure => exact h
  | _ => rfl

theorem further_optional : (a.further n).optional (pos + n) = (a.optional pos).further n := by
  rw [optional, further_map]
  exact further_orElse rfl

end Answer

namespace Parser

variable {ν : Type} {ty : ν → Type} {α : Type} {pre ts : Array Token}

/-! ### Runs -/

theorem take_moved (accepts : Token → Bool) : Moved pre.size (take ts accepts) (take (pre ++ ts) accepts) := by
  intro pos
  have hget : (pre ++ ts)[pos + pre.size]? = ts[pos]? := by
    rw [Array.getElem?_append_right (Nat.le_add_left _ _), Nat.add_sub_cancel]
  unfold take
  rw [hget]
  cases ts[pos]? with
  | none => rfl
  | some t =>
    by_cases ht : accepts t = true
    · simp [ht, Answer.further, Answer.bind, Nat.add_right_comm]
    · simp [ht, Answer.further, Answer.bind]

theorem repeatRun_moved {n : Nat} {step step' : Nat → Answer α} (hs : Moved n step step') (fuel : Nat) :
    Moved n (repeatRun step fuel) (repeatRun step' fuel) := by
  intro pos
  induction fuel generalizing pos with
  | zero => rfl
  | succ fuel ih =>
    simp only [repeatRun, hs pos]
    cases step pos with
    | success v next =>
      have hrest := ih next
      simp only [Answer.further, Answer.bind]
      rw [hrest]
      exact Answer.further_map _
    | _ => rfl

theorem chainRun_moved {n : Nat} {operand operand' : Nat → Answer α} {separator separator' : Nat → Answer (α → α → α)}
    (ho : Moved n operand operand') (hs : Moved n separator separator') (fuel : Nat) (left : α) :
    Moved n (chainRun operand separator fuel left) (chainRun operand' separator' fuel left) := by
  intro pos
  induction fuel generalizing left pos with
  | zero => rfl
  | succ fuel ih =>
    simp only [chainRun, hs pos]
    cases separator pos with
    | success join mid =>
      simp only [Answer.further, Answer.bind, ho mid]
      cases operand mid with
      | success right next => exact ih (join left right) next
      | _ => rfl
    | _ => rfl

theorem runWith_moved {called called' : (n : ν) → Nat → Answer (ty n)} (hc : ∀ n, Moved pre.size (called n) (called' n))
    (fuel : Nat) (p : Parser ty α) : Moved pre.size (p.runWith ts called fuel) (p.runWith (pre ++ ts) called' fuel) := by
  intro pos
  induction p generalizing pos with
  | token text kind => exact take_moved _ pos
  | ofKind kind => exact take_moved _ pos
  | fail => rfl
  | seq p r ihp ihr =>
    simp only [runWith, ihp pos]
    refine Answer.further_bind fun v mid => ?_
    rw [ihr mid]
    exact Answer.further_map _
  | alt p r ihp ihr =>
    simp only [runWith, ihp pos]
    exact Answer.further_orElse (ihr pos)
  | opt p ih =>
    simp only [runWith, ih pos]
    exact Answer.further_optional
  | rep p ih => exact repeatRun_moved ih fuel pos
  | map f p ih =>
    simp only [runWith, ih pos]
    exact Answer.further_map f
  | filterMap f p ih =>
    simp only [runWith, ih pos]
    exact Answer.further_filterMap f
  | chainLeft p s ihp ihs =>
    simp only [runWith, ihp pos]
    exact Answer.further_bind fun left mid => chainRun_moved ihp ihs fuel left mid
  | phrase p ih =>
    simp only [runWith, ih pos, Array.size_append, Nat.add_comm pre.size]
    exact Answer.further_endingAt ts.size
  | call n => exact hc n pos

theorem runCall_moved (defs : Family ty) (fuel : Nat) (k : ν) :
    Moved pre.size (runCall defs ts fuel k) (runCall defs (pre ++ ts) fuel k) := by
  induction fuel generalizing k with
  | zero => exact fun _ => rfl
  | succ fuel ih => exact runWith_moved ih fuel (defs k)

theorem run_moved (defs : Family ty) (fuel : Nat) (p : Parser ty α) :
    Moved pre.size (p.run defs ts fuel) (p.run defs (pre ++ ts) fuel) :=
  runWith_moved (runCall_moved defs fuel) fuel p

theorem answer_moved (defs : Family ty) (p : Parser ty α) :
    Moved pre.size (answer defs ts p) (answer defs (pre ++ ts) p) := by
  intro pos
  obtain ⟨n, hn⟩ := exists_fuel defs ts p pos
  obtain ⟨m, hm⟩ := exists_fuel defs (pre ++ ts) p (pos + pre.size)
  rw [← hn (n + m) (Nat.le_add_right n m), ← hm (n + m) (Nat.le_add_left m n)]
  exact run_moved defs (n + m) p pos

end Parser

/-- The fuel that a run of the grammar begins with hangs on the tokens that are left, so it is the same. -/
theorem Grammar.run_moved {α : Type} (p : Rule α) (pre ts : Array Token) :
    Moved pre.size (run p ts) (run p (pre ++ ts)) := by
  intro pos
  have hfuel : (pre ++ ts).size - (pos + pre.size) + 2 = ts.size - pos + 2 := by
    rw [Array.size_append]
    omega
  rw [run, hfuel]
  exact Parser.run_moved productions _ p pos

/-- Tokens in front of others move all runs that start behind them, with whatever fuel, and so what a parser gives: it
    succeeds with the same value that much further on, or it fails or goes on for ever as before. This holds of the
    runs of the grammar as well. -/
theorem Parser.answer_append {ν : Type} {ty : ν → Type} {α : Type} (defs : Family ty) (pre ts : Array Token)
    (p : Parser ty α) (pos : Nat) :
    (∀ fuel, p.run defs (pre ++ ts) fuel (pos + pre.size) = (p.run defs ts fuel pos).further pre.size) ∧
    answer defs (pre ++ ts) p (pos + pre.size) = (answer defs ts p pos).further pre.size ∧
    (∀ v q, answer defs (pre ++ ts) p (pos + pre.size) = .success v q ↔
      ∃ next, answer defs ts p pos = .success v next ∧ q = next + pre.size) ∧
    ∀ {β : Type} (r : Grammar.Rule β),
      Grammar.run r (pre ++ ts) (pos + pre.size) = (Grammar.run r ts pos).further pre.size := by
  refine ⟨fun fuel => run_moved defs fuel p pos, answer_moved defs p pos, fun v q => ?_,
    fun r => Grammar.run_moved r pre ts pos⟩
  rw [answer_moved defs p pos, Answer.further_eq_success]

end Imp
