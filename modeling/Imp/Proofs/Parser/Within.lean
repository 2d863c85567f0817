import Imp.Parser.Within
import Imp.Proofs.Parser.Termination

/-! # Where runs within runs are

What is run within the run of a parser is run at a position that this run comes to. A call that is made where the
run began is one that the analysis of first calls finds, and the loops that are run within are those of the parser
and of the family. So a parser that takes a token before it calls anything makes all its calls further on, however
deep they nest. -/

namespace Imp

/-! ### Answers that more fuel may complete -/

namespace Answer.Upto

variable {α β : Type}

theorem bind_of_success {a b : Answer α} {f g : α → Nat → Answer β} (h : a.Upto b)
    (hf : ∀ v next, a = .success v next → (f v next).Upto (g v next)) : (a.bind f).Upto (b.bind g) := by
  rcases h with rfl | rfl
  · exact .unfinished _
  · cases a with
    | success v next => exact hf v next rfl
    | _ => exact .refl _

theorem orElse_of_failure {a b : Answer α} {f g : Unit → Answer α} (h : a.Upto b)
    (hf : a = .failure → (f ()).Upto (g ())) : (a.orElse f).Upto (b.orElse g) := by
  rcases h with rfl | rfl
  · exact .unfinished _
  · cases a with
    | failure => exact hf rfl
    | _ => exact .refl _

end Answer.Upto

namespace Parser

variable {ν : Type} {ty : ν → Type} {α γ : Type} {defs : Family ty} {ts : Array Token} {pos q : Nat}

/-! ### Positions -/

theorem Rounds.reaches {round : Nat → Nat → Prop} (hr : ∀ {pos next}, round pos next → Reaches ts pos next)
    (h : Rounds round pos q) : Reaches ts pos q := by
  induction h with
  | none => exact .refl _
  | more hround _ ih => exact (hr hround).trans ih

theorem RepeatRound.reaches {step : Nat → Answer α} (hs : Forward ts step) (h : RepeatRound step pos q) :
    Reaches ts pos q := by
  obtain ⟨v, hv⟩ := h
  exact hs hv

theorem ChainRound.reaches {operand : Nat → Answer α} {separator : Nat → Answer (α → α → α)} (ho : Forward ts operand)
    (hs : Forward ts separator) (h : ChainRound operand separator pos q) : Reaches ts pos q := by
  obtain ⟨join, mid, right, hsep, hop⟩ := h
  exact (hs hsep).trans (ho hop)

variable {r : Parser ty γ} {p : Parser ty α}

theorem Rounds.repeat_reaches (h : Rounds (RepeatRound (answer defs ts p)) pos q) : Reaches ts pos q :=
  h.reaches (RepeatRound.reaches (answer_forward defs p))

theorem Rounds.chain_reaches {s : Parser ty (α → α → α)}
    (h : Rounds (ChainRound (answer defs ts p) (answer defs ts s)) pos q) : Reaches ts pos q :=
  h.reaches (ChainRound.reaches (answer_forward defs p) (answer_forward defs s))

theorem Within.reaches (h : Within defs ts r q p pos) : Reaches ts pos q := by
  induction h with
  | here => exact .refl q
  | second hp _ ih => exact (answer_forward defs _ hp).trans ih
  | rep hrounds _ ih => exact hrounds.repeat_reaches.trans ih
  | separator hp hrounds _ ih => exact (answer_forward defs _ hp).trans (hrounds.chain_reaches.trans ih)
  | nextOperand hp hrounds hs _ ih =>
    exact (answer_forward defs _ hp).trans (hrounds.chain_reaches.trans ((answer_forward defs _ hs).trans ih))
  | first _ ih | left _ ih | right _ _ ih | opt _ ih | map _ ih | filterMap _ ih | operand _ ih | phrase _ ih | call _ ih =>
    exact ih

/-! ### Calls -/

/-- The first definition calls the second one before it has taken a token. -/
def Calls (defs : Family ty) (n k : ν) : Prop := CallsFirst defs k (defs n)

/-- Where a run has not left its position, it comes to a call through calls that the analysis finds. -/
theorem Within.callsFirst {m : ν} (h : Within defs ts (.call m) q p pos) (hq : q = pos) :
    ∃ k, CallsFirst defs k p ∧ Relation.ReflTransGen (Calls defs) k m := by
  induction h with
  | here => exact ⟨m, rfl, .refl⟩
  | @call n _ _ ih =>
    obtain ⟨k, hk, hm⟩ := ih hq
    exact ⟨n, rfl, .head hk hm⟩
  | first _ ih | left _ ih | operand _ ih =>
    obtain ⟨k, hk, hm⟩ := ih hq
    exact ⟨k, Or.inl hk, hm⟩
  | right _ _ ih =>
    obtain ⟨k, hk, hm⟩ := ih hq
    exact ⟨k, Or.inr hk, hm⟩
  | opt _ ih | map _ ih | filterMap _ ih | phrase _ ih => exact ih hq
  | rep hrounds hw ih =>
    have hle := hw.reaches.1
    have hle' := hrounds.repeat_reaches.1
    exact ih (by omega)
  | @second _ _ _ _ pos mid _ hp hw ih =>
    -- Nothing goes back, so what came before the call has taken nothing.
    have hle := hw.reaches.1
    have hle' := (answer_forward defs _ hp).1
    obtain rfl : mid = pos := by omega
    obtain ⟨k, hk, hm⟩ := ih hq
    exact ⟨k, Or.inr ⟨answer_nullable hp, hk⟩, hm⟩
  | @separator _ _ _ pos mid stop _ hp hrounds hw ih =>
    have hle := hw.reaches.1
    have hle' := hrounds.chain_reaches.1
    have hle'' := (answer_forward defs _ hp).1
    obtain rfl : mid = pos := by omega
    obtain ⟨k, hk, hm⟩ := ih (by omega)
    exact ⟨k, Or.inr ⟨answer_nullable hp, hk⟩, hm⟩
  | nextOperand hp hrounds hs hw ih =>
    have hle := hw.reaches.1
    have hle' := (answer_forward defs _ hs).1
    have hle'' := hrounds.chain_reaches.1
    have hle''' := (answer_forward defs _ hp).1
    obtain ⟨k, hk, hm⟩ := ih (by omega)
    exact ⟨k, Or.inl hk, hm⟩

/-- A parser that calls nothing first makes every call, also those in calls, behind a token. -/
theorem Within.lt_of_call {m : ν} (hp : ∀ k, ¬ CallsFirst defs k p) (h : Within defs ts (.call m) q p pos) : pos < q := by
  refine Nat.lt_of_le_of_ne h.reaches.1 fun he => ?_
  obtain ⟨k, hk, -⟩ := h.callsFirst he.symm
  exact hp k hk

/-! ### Loops -/

theorem Within.loopsAdvance (hd : ∀ n, LoopsAdvance defs (defs n)) (hp : LoopsAdvance defs p)
    (h : Within defs ts r q p pos) : LoopsAdvance defs r := by
  induction h with
  | here => exact hp
  | first _ ih | left _ ih => exact ih hp.1
  | second _ _ ih | right _ _ ih | rep _ _ ih => exact ih hp.2
  | opt _ ih | map _ ih | filterMap _ ih | phrase _ ih => exact ih hp
  | operand _ ih | nextOperand _ _ _ _ ih => exact ih hp.2.1
  | separator _ _ _ ih => exact ih hp.2.2
  | call _ ih => exact ih (hd _)

/-- Each round of a chain whose loops advance takes a token. -/
theorem ChainRound.lt {s : Parser ty (α → α → α)} (hp : LoopsAdvance defs (chainLeft p s))
    (h : ChainRound (answer defs ts p) (answer defs ts s) pos q) : pos < q := by
  obtain ⟨join, mid, right, hsep, hop⟩ := h
  exact round_advances hp.1 hsep hop

/-! ### What a run depends on

A finished run asks for no other answers of definitions than those of the calls within it: it is the same with any
answers that agree with theirs. -/

theorem repeatRun_upto_of_rounds {step step' : Nat → Answer α} {round : Nat → Nat → Prop}
    (hround : ∀ {q v next}, step q = .success v next → round q next)
    (hs : ∀ q, Rounds round pos q → (step q).Upto (step' q)) (n : Nat) :
    (repeatRun step n pos).Upto (repeatRun step' n pos) := by
  induction n generalizing pos with
  | zero => exact .refl _
  | succ n ih =>
    simp only [repeatRun]
    rcases hs pos .none with h | h
    · rw [h]
      exact .unfinished _
    · rw [← h]
      cases hv : step pos with
      | success v next => exact (ih fun q hq => hs q (.more (hround hv) hq)).map _
      | _ => exact .refl _

theorem chainRun_upto_of_rounds {operand operand' : Nat → Answer α} {separator separator' : Nat → Answer (α → α → α)}
    {round : Nat → Nat → Prop}
    (hround : ∀ {q join mid right next}, separator q = .success join mid → operand mid = .success right next →
      round q next)
    (hs : ∀ q, Rounds round pos q → (separator q).Upto (separator' q))
    (ho : ∀ q join mid, Rounds round pos q → separator q = .success join mid → (operand mid).Upto (operand' mid))
    (n : Nat) (left : α) : (chainRun operand separator n left pos).Upto (chainRun operand' separator' n left pos) := by
  induction n generalizing pos left with
  | zero => exact .refl _
  | succ n ih =>
    simp only [chainRun]
    rcases hs pos .none with h | h
    · rw [h]
      exact .unfinished _
    · rw [← h]
      cases hsep : separator pos with
      | success join mid =>
        rcases ho pos join mid .none hsep with h' | h'
        · simp only [h']
          exact .unfinished _
        · simp only [← h']
          cases hop : operand mid with
          | success right next =>
            have hr := hround hsep hop
            exact ih (fun q hq => hs q (.more hr hq)) (fun q join mid hq => ho q join mid (.more hr hq)) _
          | _ => exact .refl _
      | _ => exact .refl _

theorem runWith_upto_answer (defs : Family ty) (ts : Array Token) (p : Parser ty α) (k fuel pos : Nat) :
    (p.runWith ts (runCall defs ts k) fuel pos).Upto (answer defs ts p pos) := by
  obtain ⟨m, hm⟩ := exists_fuel defs ts p pos
  rw [← hm (max m (max k fuel)) (Nat.le_max_left _ _)]
  refine runWith_upto (fun n q => ?_) (by omega) p pos
  exact runCall_upto (by omega) n q

theorem runCall_upto_answer (k : Nat) (n : ν) (q : Nat) :
    (runCall defs ts k n q).Upto (answer defs ts (call n) q) :=
  runWith_upto_answer defs ts (call n) k 0 q

theorem answer_of_runWith {k fuel : Nat} {a : Answer α} (h : p.runWith ts (runCall defs ts k) fuel pos = a)
    (ha : a ≠ .unfinished) : answer defs ts p pos = a := by
  subst h
  exact ((runWith_upto_answer defs ts p k fuel pos).eq ha).symm

theorem answer_success_of_runWith {k fuel : Nat} {v : α} (h : p.runWith ts (runCall defs ts k) fuel pos = .success v q) :
    answer defs ts p pos = .success v q :=
  answer_of_runWith h nofun

theorem answer_failure_of_runWith {k fuel : Nat} (h : p.runWith ts (runCall defs ts k) fuel pos = .failure) :
    answer defs ts p pos = .failure :=
  answer_of_runWith h nofun

theorem runWith_upto_of_within {called : (n : ν) → Nat → Answer (ty n)} {k fuel : Nat}
    (h : ∀ n q, Within defs ts (.call n) q p pos → (runCall defs ts k n q).Upto (called n q)) :
    (p.runWith ts (runCall defs ts k) fuel pos).Upto (p.runWith ts called fuel pos) := by
  induction p generalizing pos with
  | token text kind => exact .refl _
  | ofKind kind => exact .refl _
  | fail => exact .refl _
  | seq p r ihp ihr =>
    refine (ihp fun n q hw => h n q (.first hw)).bind_of_success fun v mid hv => ?_
    exact (ihr fun n q hw => h n q (.second (answer_success_of_runWith hv) hw)).map _
  | alt p r ihp ihr =>
    refine (ihp fun n q hw => h n q (.left hw)).orElse_of_failure fun hf => ?_
    exact ihr fun n q hw => h n q (.right (answer_failure_of_runWith hf) hw)
  | opt p ih => exact (ih fun n q hw => h n q (.opt hw)).optional pos
  | rep p ih =>
    exact repeatRun_upto_of_rounds (fun hv => ⟨_, answer_success_of_runWith hv⟩)
      (fun mid hmid => ih fun n q hw => h n q (.rep hmid hw)) fuel
  | map f p ih => exact (ih fun n q hw => h n q (.map hw)).map f
  | filterMap f p ih => exact (ih fun n q hw => h n q (.filterMap hw)).filterMap f
  | chainLeft p s ihp ihs =>
    refine (ihp fun n q hw => h n q (.operand hw)).bind_of_success fun left mid hv => ?_
    have hv := answer_success_of_runWith hv
    refine chainRun_upto_of_rounds
      (fun hsep hop => ⟨_, _, _, answer_success_of_runWith hsep, answer_success_of_runWith hop⟩)
      (fun stop hstop => ihs fun n q hw => h n q (.separator hv hstop hw))
      (fun stop join next hstop hsep => ihp fun n q hw => ?_) fuel left
    exact h n q (.nextOperand hv hstop (answer_success_of_runWith hsep) hw)
  | phrase p ih => exact (ih fun n q hw => h n q (.phrase hw)).endingAt _
  | call n => exact h n pos .here

end Parser

end Imp
