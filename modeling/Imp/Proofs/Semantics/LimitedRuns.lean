import Imp.Proofs.Semantics.Limits

/-! # Runs with a limit end

With a limit, one execution of a loop evaluates its condition at most once more than it may begin iterations. A run
follows the tree of its statement, and each loop in it, however often an outer loop starts it again, is given the
same fuel; so fuel for one execution of a loop is fuel for the whole run. A loop counts no further than the limit,
so its count fits into 64 bits as the limit does. -/

namespace Imp

variable {N : UInt64}

/-! ### Fuel for one execution -/

namespace Stmt

theorem andThen_ne_none {o : Option Outcome} {next : Env → Option Outcome} (ho : o ≠ none) (hn : ∀ e, next e ≠ none) :
    andThen o next ≠ none := by
  match o, ho with
  | some (.done e), _ => exact hn e
  | some (.stopped f e), _ => exact Option.some_ne_none _

theorem lt_of_not_exhausted {k : Nat} (h : exhausted (some N) k = none) : k < N.toNat := by
  have hle := Option.filter_eq_none_iff.mp h N rfl
  rwa [decide_eq_true_eq, Nat.not_le] at hle

/-- A loop that has begun `k` iterations needs fuel for those that it may still begin, and once more for its
    condition. -/
theorem iterate_ne_none {test : Env → Except Fault Bool} {body : Env → Option Outcome} (hb : ∀ e, body e ≠ none)
    {fuel k : Nat} (hf : N.toNat - k < fuel) (e : Env) : iterate (some N) test body fuel k e ≠ none := by
  induction fuel generalizing k e with
  | zero => omega
  | succ fuel ih =>
    rw [iterate]
    rcases test e with f | b
    · exact Option.some_ne_none _
    · cases b with
      | false => exact Option.some_ne_none _
      | true =>
        cases hx : exhausted (some N) k with
        | some n => exact Option.some_ne_none _
        | none =>
          have hk := lt_of_not_exhausted hx
          -- What follows an iteration is what `andThen` makes of it.
          exact andThen_ne_none (hb e) fun e' => ih (by omega) e'

theorem exec_ne_none {fuel : Nat} (hf : N.toNat < fuel) (s : Stmt) (e : Env) : s.exec (some N) fuel e ≠ none := by
  induction s generalizing e with
  | assign x v =>
    rw [exec]
    cases v.eval e <;> exact Option.some_ne_none _
  | seq s t ihs iht => exact andThen_ne_none (ihs e) iht
  | «when» c s ih =>
    rw [exec]
    rcases c.eval e with f | b
    · exact Option.some_ne_none _
    · cases b with
      | false => exact Option.some_ne_none _
      | true => exact ih e
  | branch c s t ihs iht =>
    rw [exec]
    rcases c.eval e with f | b
    · exact Option.some_ne_none _
    · cases b with
      | false => exact iht e
      | true => exact ihs e
  | loop c s ih => exact iterate_ne_none ih (by omega) e

end Stmt

/-! ### What a loop counts -/

namespace Machine

variable {m : Machine}

/-- A step with a limit leaves no loop with more iterations begun than the limit. -/
theorem begun_le_step (h : ∀ t ∈ m.todo, t.begun ≤ N.toNat) : ∀ t ∈ (m.step (some N)).todo, t.begun ≤ N.toNat := by
  intro t ht
  by_cases hb : ∀ k, m.Begins k → k < N.toNat
  · rw [step_eq_of_lt hb] at ht
    rcases mem_todo_step ht with ht | ht | ⟨k, hk, ht⟩
    · exact h t ht
    · omega
    · have := hb k hk
      omega
  · -- A loop is about to go past the limit, and the machine ends.
    simp only [not_forall, Nat.not_lt] at hb
    obtain ⟨k, hk, hle⟩ := hb
    obtain ⟨e, he⟩ := hk.step_of_le hle
    rw [he] at ht
    cases ht

theorem begun_le_after (h : ∀ t ∈ m.todo, t.begun ≤ N.toNat) (n : Nat) :
    ∀ t ∈ (m.after (some N) n).todo, t.begun ≤ N.toNat := by
  induction n with
  | zero => exact h
  | succ n ih =>
    rw [← step_after]
    exact begun_le_step ih

end Machine

/-! ### Runs with a limit -/

/-- With a limit every run ends, and the machine ends with it. On the way no execution of a loop counts further than
    the limit, so no count needs more than 64 bits. -/
theorem Stmt.ends_of_limit (N : UInt64) (s : Stmt) (e : Env) :
    (∃ o, s.run (some N) e = some o ∧ s.Ends (some N) e o ∧ (Machine.load s e).EndsIn (some N) o) ∧
      ∀ n, ∀ t ∈ ((Machine.load s e).after (some N) n).todo, t.begun ≤ N.toNat ∧ t.begun < UInt64.size := by
  constructor
  · have hfuel : N.toNat < fuelFor (some N) := Nat.lt_add_of_pos_right Nat.two_pos
    obtain ⟨o, ho⟩ := Option.ne_none_iff_exists'.mp (exec_ne_none hfuel s e)
    have hends : s.Ends (some N) e o := ⟨fuelFor (some N), ho⟩
    exact ⟨o, ho, hends, Machine.endsIn_load_iff.mpr hends⟩
  · intro n t ht
    have hstart : ∀ t ∈ (Machine.load s e).todo, t.begun ≤ N.toNat := by
      intro t ht
      rw [Machine.begun_load t ht]
      exact Nat.zero_le _
    have hle := Machine.begun_le_after hstart n t ht
    exact ⟨hle, Nat.lt_of_le_of_lt hle N.toNat_lt_size⟩

end Imp
