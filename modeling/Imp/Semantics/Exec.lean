import Imp.Semantics.Eval
import Imp.Semantics.Outcome

/-! # Runs of statements

A run ends with the environment that the statement leaves, or it is stopped by a fault and leaves the
environment as it was at that moment, or it goes on for ever. A limit may bound the iterations of
each single execution of a loop: a loop whose condition still holds after that many is stopped.

Execution follows the tree of the statement. Only a loop may go on without end, so the fuel bounds
how often any one execution of a loop evaluates its condition, and a run that would need more is
unfinished. -/

namespace Imp

namespace Stmt

/-- Goes on with a run that is done. A run that was stopped, or is unfinished, stays as it is. -/
def andThen (o : Option Outcome) (next : Env → Option Outcome) : Option Outcome :=
  match o with
  | some (.done e) => next e
  | o => o

/-- The limit, if a loop that has begun so many iterations may begin no other. -/
def exhausted (limit : Option UInt64) (begun : Nat) : Option UInt64 :=
  limit.filter fun n => n.toNat ≤ begun

/-- Goes on with a loop that has begun so many iterations. -/
def iterate (limit : Option UInt64) (test : Env → Except Fault Bool) (body : Env → Option Outcome) :
    Nat → Nat → Env → Option Outcome
  | 0, _, _ => none
  | fuel + 1, begun, e =>
    match test e with
    | .error f => some (.stopped f e)
    | .ok false => some (.done e)
    | .ok true =>
      match exhausted limit begun with
      | some n => some (.stopped (.tooManyIterations n) e)
      | none =>
        match body e with
        | some (.done e) => iterate limit test body fuel (begun + 1) e
        | o => o

/-- The run of a statement from an environment. -/
def exec (limit : Option UInt64) (fuel : Nat) : Stmt → Env → Option Outcome
  | assign x v, e =>
    match v.eval e with
    | .error f => some (.stopped f e)
    | .ok n => some (.done (e.insert x n))
  | seq s t, e => andThen (s.exec limit fuel e) (t.exec limit fuel)
  | .when c s, e =>
    match c.eval e with
    | .error f => some (.stopped f e)
    | .ok true => s.exec limit fuel e
    | .ok false => some (.done e)
  | branch c s t, e =>
    match c.eval e with
    | .error f => some (.stopped f e)
    | .ok true => s.exec limit fuel e
    | .ok false => t.exec limit fuel e
  | loop c s, e => iterate limit (fun e => c.eval e) (s.exec limit fuel) fuel 0 e

/-- Fuel for a run with this limit. A limit bounds every loop. Without one, the fuel is more than a
    machine can use up, and a run that goes on for ever is taken to be one that needs more. -/
def fuelFor : Option UInt64 → Nat
  | some n => n.toNat + 2
  | none => 0x4000000000000000

/-- The outcome of running a statement, unless the run goes on for ever. -/
def run (limit : Option UInt64) (s : Stmt) (e : Env) : Option Outcome := s.exec limit (fuelFor limit) e

/-- The run of a statement from an environment ends, and has this outcome. -/
def Ends (limit : Option UInt64) (s : Stmt) (e : Env) (o : Outcome) : Prop :=
  ∃ fuel, s.exec limit fuel e = some o

/-- The run of a statement from an environment goes on for ever. -/
def Diverges (limit : Option UInt64) (s : Stmt) (e : Env) : Prop :=
  ∀ fuel, s.exec limit fuel e = none

/-! ### More fuel

An outcome that was reached with some fuel is reached with any more, so a run has at most one. -/

theorem andThen_eq_some {o : Option Outcome} {next : Env → Option Outcome} {r : Outcome}
    (h : andThen o next = some r) :
    (∃ e, o = some (.done e) ∧ next e = some r) ∨ (∃ f e, o = some (.stopped f e) ∧ r = .stopped f e) := by
  match o, h with
  | some (.done e), h => exact Or.inl ⟨e, rfl, h⟩
  | some (.stopped f e), h => exact Or.inr ⟨f, e, rfl, (Option.some.inj h).symm⟩

theorem iterate_mono {limit : Option UInt64} {test : Env → Except Fault Bool} {body body' : Env → Option Outcome}
    (hb : ∀ e o, body e = some o → body' e = some o) {n m : Nat} (hnm : n ≤ m) {k : Nat} {e : Env} {o : Outcome}
    (h : iterate limit test body n k e = some o) : iterate limit test body' m k e = some o := by
  induction n generalizing m k e with
  | zero => cases h
  | succ n ih =>
    obtain ⟨m, rfl⟩ : ∃ m', m = m' + 1 := ⟨m - 1, by omega⟩
    simp only [iterate] at h ⊢
    match ht : test e with
    | .error f => simpa only [ht] using h
    | .ok false => simpa only [ht] using h
    | .ok true =>
      simp only [ht] at h ⊢
      match hx : exhausted limit k with
      | some _ => simpa only [hx] using h
      | none =>
        simp only [hx] at h ⊢
        match hr : body e with
        | some (.done e') =>
          simp only [hr, hb e _ hr] at h ⊢
          exact ih (by omega) h
        | some (.stopped f e') => simpa only [hr, hb e _ hr] using h
        | none => simp [hr] at h

theorem exec_mono {limit : Option UInt64} {s : Stmt} {n m : Nat} (hnm : n ≤ m) {e : Env} {o : Outcome}
    (h : s.exec limit n e = some o) : s.exec limit m e = some o := by
  induction s generalizing e o with
  | assign x v => exact h
  | seq s t ihs iht =>
    simp only [exec] at h ⊢
    rcases andThen_eq_some h with ⟨e', hs, ht⟩ | ⟨f, e', hs, rfl⟩
    · rw [ihs hs]
      exact iht ht
    · rw [ihs hs]
      rfl
  | «when» c s ih =>
    simp only [exec] at h ⊢
    match hc : c.eval e with
    | .error f => simpa only [hc] using h
    | .ok true => exact ih (by simpa only [hc] using h)
    | .ok false => simpa only [hc] using h
  | branch c s t ihs iht =>
    simp only [exec] at h ⊢
    match hc : c.eval e with
    | .error f => simpa only [hc] using h
    | .ok true => exact ihs (by simpa only [hc] using h)
    | .ok false => exact iht (by simpa only [hc] using h)
  | loop c s ih => exact iterate_mono (fun _ _ => ih) hnm h

theorem Ends.unique {limit : Option UInt64} {s : Stmt} {e : Env} {o o' : Outcome} (h : s.Ends limit e o)
    (h' : s.Ends limit e o') : o = o' := by
  obtain ⟨n, hn⟩ := h
  obtain ⟨m, hm⟩ := h'
  exact Option.some.inj ((exec_mono (Nat.le_max_left n m) hn).symm.trans (exec_mono (Nat.le_max_right n m) hm))

end Stmt

end Imp
