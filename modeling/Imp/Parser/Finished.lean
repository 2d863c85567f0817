import Imp.Parser.Run

/-! # Finished runs

A run with more fuel gives the same answer or, where the run with less was unfinished, any. So all
finished runs of a parser at a position agree, and what they give is the parser's answer there, apart
from any fuel. -/

namespace Imp

/-! ### Answers that more fuel may complete -/

/-- The second answer is the first one, or the first one was unfinished. -/
def Answer.Upto {α : Type} (a b : Answer α) : Prop := a = unfinished ∨ a = b

namespace Answer.Upto

variable {α β : Type}

theorem refl (a : Answer α) : a.Upto a := Or.inr rfl

theorem unfinished (a : Answer α) : Answer.unfinished.Upto a := Or.inl rfl

theorem eq {a b : Answer α} (h : a.Upto b) (ha : a ≠ .unfinished) : a = b := h.resolve_left ha

theorem of_finished {a b c : Answer α} (h : a.Upto b) (ha : a = c) (hc : c ≠ .unfinished) : b = c := by
  subst ha
  exact (h.eq hc).symm

theorem bind {a b : Answer α} {f g : α → Nat → Answer β} (h : a.Upto b) (hf : ∀ v next, (f v next).Upto (g v next)) :
    (a.bind f).Upto (b.bind g) := by
  rcases h with rfl | rfl
  · exact unfinished _
  · cases a with
    | success v next => exact hf v next
    | _ => exact refl _

theorem map {a b : Answer α} (f : α → β) (h : a.Upto b) : (a.map f).Upto (b.map f) :=
  h.bind fun _ _ => refl _

theorem filterMap {a b : Answer α} (f : α → Option β) (h : a.Upto b) : (a.filterMap f).Upto (b.filterMap f) :=
  h.bind fun _ _ => refl _

theorem endingAt {a b : Answer α} (stop : Nat) (h : a.Upto b) : (a.endingAt stop).Upto (b.endingAt stop) :=
  h.bind fun _ _ => refl _

theorem orElse {a b : Answer α} {f g : Unit → Answer α} (h : a.Upto b) (hf : (f ()).Upto (g ())) :
    (a.orElse f).Upto (b.orElse g) := by
  rcases h with rfl | rfl
  · exact unfinished _
  · cases a with
    | failure => exact hf
    | _ => exact refl _

theorem optional {a b : Answer α} (pos : Nat) (h : a.Upto b) : (a.optional pos).Upto (b.optional pos) :=
  (h.map some).orElse (refl _)

end Answer.Upto

/-! ### Runs -/

namespace Parser

variable {ν : Type} {ty : ν → Type} {α : Type}

theorem repeatRun_upto {step step' : Nat → Answer α} (hs : ∀ pos, (step pos).Upto (step' pos)) {n m : Nat} (hnm : n ≤ m)
    (pos : Nat) : (repeatRun step n pos).Upto (repeatRun step' m pos) := by
  induction n generalizing m pos with
  | zero => exact .unfinished _
  | succ n ih =>
    obtain ⟨m, rfl⟩ : ∃ k, m = k + 1 := ⟨m - 1, by omega⟩
    simp only [repeatRun]
    rcases hs pos with h | h
    · rw [h]
      exact .unfinished _
    · rw [h]
      cases step' pos with
      | success v next => exact (ih (by omega) next).map _
      | _ => exact .refl _

theorem chainRun_upto {operand operand' : Nat → Answer α} {separator separator' : Nat → Answer (α → α → α)}
    (ho : ∀ pos, (operand pos).Upto (operand' pos)) (hs : ∀ pos, (separator pos).Upto (separator' pos)) {n m : Nat}
    (hnm : n ≤ m) (left : α) (pos : Nat) :
    (chainRun operand separator n left pos).Upto (chainRun operand' separator' m left pos) := by
  induction n generalizing m left pos with
  | zero => exact .unfinished _
  | succ n ih =>
    obtain ⟨m, rfl⟩ : ∃ k, m = k + 1 := ⟨m - 1, by omega⟩
    simp only [chainRun]
    rcases hs pos with h | h
    · rw [h]
      exact .unfinished _
    · rw [h]
      cases separator' pos with
      | success join mid =>
        rcases ho mid with h | h
        · simp only [h]
          exact .unfinished _
        · simp only [h]
          cases operand' mid with
          | success right next => exact ih (by omega) _ next
          | _ => exact .refl _
      | _ => exact .refl _

theorem runWith_upto {ts : Array Token} {called called' : (n : ν) → Nat → Answer (ty n)}
    (hc : ∀ n pos, (called n pos).Upto (called' n pos)) {n m : Nat} (hnm : n ≤ m) {α : Type} (p : Parser ty α)
    (pos : Nat) : (p.runWith ts called n pos).Upto (p.runWith ts called' m pos) := by
  induction p generalizing pos with
  | token text kind => exact .refl _
  | ofKind kind => exact .refl _
  | fail => exact .refl _
  | seq p q ihp ihq => exact (ihp pos).bind fun _ mid => (ihq mid).map _
  | alt p q ihp ihq => exact (ihp pos).orElse (ihq pos)
  | opt p ih => exact (ih pos).optional pos
  | rep p ih => exact repeatRun_upto ih hnm pos
  | map f p ih => exact (ih pos).map f
  | filterMap f p ih => exact (ih pos).filterMap f
  | chainLeft p s ihp ihs => exact (ihp pos).bind fun left mid => chainRun_upto ihp ihs hnm left mid
  | phrase p ih => exact (ih pos).endingAt _
  | call n => exact hc n pos

theorem runCall_upto {defs : Family ty} {ts : Array Token} {n m : Nat} (hnm : n ≤ m) (k : ν) (pos : Nat) :
    (runCall defs ts n k pos).Upto (runCall defs ts m k pos) := by
  induction n generalizing m k pos with
  | zero => exact .unfinished _
  | succ n ih =>
    obtain ⟨m, rfl⟩ : ∃ j, m = j + 1 := ⟨m - 1, by omega⟩
    exact runWith_upto (fun k pos => ih (by omega) k pos) (by omega) (defs k) pos

theorem run_upto {defs : Family ty} {ts : Array Token} {n m : Nat} (hnm : n ≤ m) (p : Parser ty α) (pos : Nat) :
    (p.run defs ts n pos).Upto (p.run defs ts m pos) := by
  refine runWith_upto (fun k pos => ?_) hnm p pos
  exact runCall_upto hnm k pos

/-! ### The answer of a parser -/

/-- The parser's answer at a position: that of every run that has enough fuel. -/
def Gives (defs : Family ty) (ts : Array Token) (p : Parser ty α) (pos : Nat) (a : Answer α) : Prop :=
  a ≠ .unfinished ∧ ∃ fuel, p.run defs ts fuel pos = a

/-- Some run of the parser at this position is finished. -/
def Halts (defs : Family ty) (ts : Array Token) (p : Parser ty α) (pos : Nat) : Prop :=
  ∃ fuel, p.run defs ts fuel pos ≠ .unfinished

theorem Gives.of_le {defs : Family ty} {ts : Array Token} {p : Parser ty α} {pos n m : Nat} (hnm : n ≤ m)
    (h : p.run defs ts n pos ≠ .unfinished) : Gives defs ts p pos (p.run defs ts m pos) := by
  have he := (run_upto hnm p pos).eq h
  exact ⟨he ▸ h, m, rfl⟩

theorem Gives.unique {defs : Family ty} {ts : Array Token} {p : Parser ty α} {pos : Nat} {a b : Answer α}
    (ha : Gives defs ts p pos a) (hb : Gives defs ts p pos b) : a = b := by
  obtain ⟨ha, n, rfl⟩ := ha
  obtain ⟨hb, m, rfl⟩ := hb
  have hn := (run_upto (Nat.le_max_left n m) p pos).eq ha
  have hm := (run_upto (Nat.le_max_right n m) p pos).eq hb
  exact hn.trans hm.symm

/-- The parser's answer at a position, apart from any fuel: unfinished, if every run is. -/
noncomputable def answer (defs : Family ty) (ts : Array Token) (p : Parser ty α) (pos : Nat) : Answer α :=
  open Classical in if h : ∃ a, Gives defs ts p pos a then h.choose else .unfinished

end Parser

end Imp
