import Imp.Parser.WellFormed
import Imp.Proofs.Parser.Rules

/-! # Positions

A parser that succeeds has not gone back, and what it took stands in the tokens: where it comes to a
position past the end of the tokens, it started there. One that has not moved is nullable. This holds of
every run, and so of answers. -/

namespace Imp

/-- A run may come from one position to another. -/
def Reaches (ts : Array Token) (pos q : Nat) : Prop := pos ≤ q ∧ (q = pos ∨ q ≤ ts.size)

/-- What succeeds goes from the position that it is asked at to one that it may come to. -/
def Forward {α : Type} (ts : Array Token) (f : Nat → Answer α) : Prop :=
  ∀ {pos : Nat} {v : α} {q : Nat}, f pos = .success v q → Reaches ts pos q

namespace Reaches

variable {ts : Array Token} {pos mid q : Nat}

theorem refl (pos : Nat) : Reaches ts pos pos := ⟨Nat.le_refl pos, Or.inl rfl⟩

theorem le_size (h : Reaches ts pos q) (hlt : pos < q) : q ≤ ts.size := h.2.resolve_left (Nat.ne_of_gt hlt)

theorem trans (h : Reaches ts pos mid) (h' : Reaches ts mid q) : Reaches ts pos q := by
  refine ⟨Nat.le_trans h.1 h'.1, ?_⟩
  rcases h'.2 with rfl | hq
  · exact h.2
  · exact Or.inr hq

end Reaches

namespace Parser

variable {ν : Type} {ty : ν → Type} {ts : Array Token} {α : Type}

theorem take_forward (accepts : Token → Bool) : Forward ts (take ts accepts) := by
  intro pos x q h
  obtain ⟨t, ht, -, -, rfl⟩ := take_eq_success.mp h
  exact ⟨Nat.le_succ pos, Or.inr (Array.getElem?_eq_some_iff.mp ht).1⟩

theorem repeatRun_forward {step : Nat → Answer α} (hs : Forward ts step) (n : Nat) : Forward ts (repeatRun step n) := by
  intro pos v q h
  induction n generalizing pos v with
  | zero => cases h
  | succ n ih =>
    rcases repeatRun_succ_cases h with ⟨-, -, rfl⟩ | ⟨w, next, ws, hstep, hrest, -⟩
    · exact .refl q
    · exact (hs hstep).trans (ih hrest)

theorem chainRun_forward {operand : Nat → Answer α} {separator : Nat → Answer (α → α → α)} (ho : Forward ts operand)
    (hs : Forward ts separator) (n : Nat) (left : α) : Forward ts (chainRun operand separator n left) := by
  intro pos v q h
  induction n generalizing left pos with
  | zero => cases h
  | succ n ih =>
    rcases chainRun_succ_cases h with ⟨-, -, rfl⟩ | ⟨join, mid, right, next, hsep, hop, h⟩
    · exact .refl q
    · exact (hs hsep).trans ((ho hop).trans (ih _ h))

theorem runWith_forward {called : (n : ν) → Nat → Answer (ty n)} (hc : ∀ n, Forward ts (called n)) (fuel : Nat)
    (p : Parser ty α) : Forward ts (p.runWith ts called fuel) := by
  intro pos v q h
  induction p generalizing pos q with
  | token text kind => exact take_forward _ h
  | ofKind kind => exact take_forward _ h
  | fail => cases h
  | seq p r ihp ihr =>
    obtain ⟨mid, hp, hr⟩ := seq_eq_success.mp h
    exact (ihp hp).trans (ihr hr)
  | alt p r ihp ihr =>
    rcases alt_eq_success.mp h with hp | ⟨-, hr⟩
    · exact ihp hp
    · exact ihr hr
  | opt p ih =>
    rcases Answer.optional_eq_success.mp h with ⟨w, hp, -⟩ | ⟨-, -, rfl⟩
    · exact ih hp
    · exact .refl q
  | rep p ih => exact repeatRun_forward ih fuel h
  | map f p ih =>
    obtain ⟨w, hp, -⟩ := map_eq_success.mp h
    exact ih hp
  | filterMap f p ih =>
    obtain ⟨w, hp, -⟩ := Answer.filterMap_eq_success.mp h
    exact ih hp
  | chainLeft p s ihp ihs =>
    obtain ⟨left, mid, hp, hrest⟩ := Answer.bind_eq_success.mp h
    exact (ihp hp).trans (chainRun_forward ihp ihs fuel left hrest)
  | phrase p ih => exact ih (Answer.endingAt_eq_success.mp h).1
  | call n => exact hc n h

theorem runCall_forward (defs : Family ty) (fuel : Nat) (k : ν) : Forward ts (runCall defs ts fuel k) := by
  induction fuel generalizing k with
  | zero => exact nofun
  | succ n ih => exact runWith_forward ih n (defs k)

theorem run_forward (defs : Family ty) (fuel : Nat) (p : Parser ty α) : Forward ts (p.run defs ts fuel) :=
  runWith_forward (runCall_forward defs fuel) fuel p

theorem answer_forward (defs : Family ty) (p : Parser ty α) : Forward ts (answer defs ts p) := by
  intro pos v q h
  obtain ⟨n, hn⟩ := exists_run defs ts p pos
  exact run_forward defs n p (hn.trans h)

/-! ### Parsers that do not move -/

theorem runWith_nullable {defs : Family ty} {called : (n : ν) → Nat → Answer (ty n)} (hc : ∀ n, Forward ts (called n))
    (hn : ∀ n pos v, called n pos = .success v pos → Nullable defs (defs n)) (fuel : Nat) {α : Type} (p : Parser ty α)
    {pos : Nat} {v : α} (h : p.runWith ts called fuel pos = .success v pos) : Nullable defs p := by
  induction p generalizing pos with
  | token text kind =>
    obtain ⟨-, -, -, -, hpos⟩ := take_eq_success.mp h
    omega
  | ofKind kind =>
    obtain ⟨-, -, -, -, hpos⟩ := take_eq_success.mp h
    omega
  | fail => cases h
  | seq p r ihp ihr =>
    obtain ⟨mid, hp, hr⟩ := seq_eq_success.mp h
    -- Nothing goes back, so neither part has left the position.
    obtain rfl := Nat.le_antisymm (runWith_forward hc fuel r hr).1 (runWith_forward hc fuel p hp).1
    exact .seq (ihp hp) (ihr hr)
  | alt p r ihp ihr =>
    rcases alt_eq_success.mp h with hp | ⟨-, hr⟩
    · exact .left (ihp hp)
    · exact .right (ihr hr)
  | opt p ih => exact .opt
  | rep p ih => exact .rep
  | map f p ih =>
    obtain ⟨w, hp, -⟩ := map_eq_success.mp h
    exact .map (ih hp)
  | filterMap f p ih =>
    obtain ⟨w, hp, -⟩ := Answer.filterMap_eq_success.mp h
    exact .filterMap (ih hp)
  | chainLeft p s ihp ihs =>
    obtain ⟨left, mid, hp, hrest⟩ := Answer.bind_eq_success.mp h
    have hle := (chainRun_forward (runWith_forward hc fuel p) (runWith_forward hc fuel s) fuel left hrest).1
    obtain rfl := Nat.le_antisymm hle (runWith_forward hc fuel p hp).1
    exact .chainLeft (ihp hp)
  | phrase p ih => exact .phrase (ih (Answer.endingAt_eq_success.mp h).1)
  | call n => exact .call (hn n pos v h)

theorem runCall_nullable {defs : Family ty} {fuel : Nat} {k : ν} {pos : Nat} {v : ty k}
    (h : runCall defs ts fuel k pos = .success v pos) : Nullable defs (defs k) := by
  induction fuel generalizing k pos with
  | zero => cases h
  | succ n ih => exact runWith_nullable (runCall_forward defs n) (fun _ _ _ => ih) n (defs k) h

theorem run_nullable {defs : Family ty} {fuel : Nat} {p : Parser ty α} {pos : Nat} {v : α}
    (h : p.run defs ts fuel pos = .success v pos) : Nullable defs p :=
  runWith_nullable (runCall_forward defs fuel) (fun _ _ _ => runCall_nullable) fuel p h

theorem answer_nullable {defs : Family ty} {p : Parser ty α} {pos : Nat} {v : α}
    (h : answer defs ts p pos = .success v pos) : Nullable defs p := by
  obtain ⟨n, hn⟩ := exists_run defs ts p pos
  exact run_nullable (hn.trans h)

/-- A parser that is not nullable takes a token. -/
theorem run_advances {defs : Family ty} {fuel : Nat} {p : Parser ty α} (hp : ¬ Nullable defs p) {pos q : Nat} {v : α}
    (h : p.run defs ts fuel pos = .success v q) : pos < q := by
  refine Nat.lt_of_le_of_ne (run_forward defs fuel p h).1 fun he => hp ?_
  rw [← he] at h
  exact run_nullable h

theorem answer_advances {defs : Family ty} {p : Parser ty α} (hp : ¬ Nullable defs p) {pos q : Nat} {v : α}
    (h : answer defs ts p pos = .success v q) : pos < q := by
  obtain ⟨n, hn⟩ := exists_run defs ts p pos
  exact run_advances hp (hn.trans h)

/-! ### The positions of a run -/

/-- A run that succeeds has not gone back. It has stayed where it was or has come to no position past the end of the
    tokens, and it has moved on if the parser is not nullable. Past the end, no phrase succeeds. -/
theorem run_positions (defs : Family ty) (ts : Array Token) (fuel : Nat) (p : Parser ty α) (pos : Nat) :
    (∀ v q, p.run defs ts fuel pos = .success v q →
      pos ≤ q ∧ (q = pos ∨ q ≤ ts.size) ∧ (¬ Nullable defs p → pos < q)) ∧
    (ts.size < pos → ∀ v q, (phrase p).run defs ts fuel pos ≠ .success v q) := by
  refine ⟨fun v q h => ?_, fun hpast v q h => ?_⟩
  · obtain ⟨hle, hend⟩ := run_forward defs fuel p h
    exact ⟨hle, hend, fun hp => run_advances hp h⟩
  · -- A phrase ends where the tokens do, and so it cannot have begun behind that.
    obtain ⟨hp, rfl⟩ := Answer.endingAt_eq_success.mp h
    exact Nat.not_le_of_lt hpast (run_forward defs fuel p hp).1

end Parser

end Imp
