import Imp.Semantics.Exec
import Imp.Syntax.Normal

/-! # Rules for runs

How the run of a statement ends, said by the runs of its parts and without fuel. A run of a loop is a
derivation of its own: it has a rule for each way in which an iteration can go, and the rule for an
iteration that is done is the only one with a premise about the same loop. -/

namespace Imp.Stmt

variable {limit : Option UInt64} {e : Env} {o : Outcome}

theorem diverges_iff {s : Stmt} : s.Diverges limit e ↔ ∀ o, ¬ s.Ends limit e o := by
  constructor
  · rintro h o ⟨fuel, hf⟩
    rw [h fuel] at hf
    cases hf
  · intro h fuel
    rw [Option.eq_none_iff_forall_ne_some]
    exact fun o hf => h o ⟨fuel, hf⟩

/-! ### Statements without loops -/

theorem ends_assign_iff {x : String} {v : Expr} : (assign x v).Ends limit e o ↔
    (∃ n, v.eval e = .ok n ∧ o = .done (e.insert x n)) ∨ (∃ f, v.eval e = .error f ∧ o = .stopped f e) := by
  simp only [Ends, exec, exists_const]
  cases v.eval e <;> simp [eq_comm]

theorem ends_seq_iff {s t : Stmt} : (seq s t).Ends limit e o ↔
    (∃ e', s.Ends limit e (.done e') ∧ t.Ends limit e' o) ∨
    (∃ f e', s.Ends limit e (.stopped f e') ∧ o = .stopped f e') := by
  constructor
  · rintro ⟨fuel, h⟩
    rcases andThen_eq_some h with ⟨e', hs, ht⟩ | ⟨f, e', hs, rfl⟩
    · exact Or.inl ⟨e', ⟨fuel, hs⟩, ⟨fuel, ht⟩⟩
    · exact Or.inr ⟨f, e', ⟨fuel, hs⟩, rfl⟩
  · rintro (⟨e', ⟨n, hs⟩, ⟨m, ht⟩⟩ | ⟨f, e', ⟨n, hs⟩, rfl⟩)
    · refine ⟨max n m, ?_⟩
      rw [exec, exec_mono (Nat.le_max_left n m) hs]
      exact exec_mono (Nat.le_max_right n m) ht
    · refine ⟨n, ?_⟩
      rw [exec, hs]
      rfl

theorem diverges_seq_iff {s t : Stmt} : (seq s t).Diverges limit e ↔
    s.Diverges limit e ∨ ∃ e', s.Ends limit e (.done e') ∧ t.Diverges limit e' := by
  simp only [diverges_iff, ends_seq_iff]
  constructor
  · intro h
    by_cases hs : ∃ e', s.Ends limit e (.done e')
    · obtain ⟨e', hs⟩ := hs
      exact Or.inr ⟨e', hs, fun o ht => h o (Or.inl ⟨e', hs, ht⟩)⟩
    · refine Or.inl fun o ho => ?_
      cases o with
      | done e' => exact hs ⟨e', ho⟩
      | stopped f e' => exact h _ (Or.inr ⟨f, e', ho, rfl⟩)
  · rintro (h | ⟨e', hs, ht⟩) o (⟨e'', hs', ht'⟩ | ⟨f, e'', hs', -⟩)
    · exact h _ hs'
    · exact h _ hs'
    · cases hs.unique hs'
      exact ht o ht'
    · cases hs.unique hs'

theorem ends_when_iff {c : Cond} {s : Stmt} : («when» c s).Ends limit e o ↔
    (c.eval e = .ok true ∧ s.Ends limit e o) ∨ (c.eval e = .ok false ∧ o = .done e) ∨
    (∃ f, c.eval e = .error f ∧ o = .stopped f e) := by
  simp only [Ends, exec]
  rcases hc : c.eval e with f | b
  · simp [eq_comm]
  · cases b <;> simp [eq_comm]

theorem ends_branch_iff {c : Cond} {s t : Stmt} : (branch c s t).Ends limit e o ↔
    (c.eval e = .ok true ∧ s.Ends limit e o) ∨ (c.eval e = .ok false ∧ t.Ends limit e o) ∨
    (∃ f, c.eval e = .error f ∧ o = .stopped f e) := by
  simp only [Ends, exec]
  rcases hc : c.eval e with f | b
  · simp [eq_comm]
  · cases b <;> simp

/-! ### Loops -/

/-- The run of a loop that has begun so many iterations ends, and has this outcome. -/
inductive LoopEnds (limit : Option UInt64) (c : Cond) (s : Stmt) : Nat → Env → Outcome → Prop where
  | fault {k : Nat} {e : Env} {f : Fault} : c.eval e = .error f → LoopEnds limit c s k e (.stopped f e)
  | exit {k : Nat} {e : Env} : c.eval e = .ok false → LoopEnds limit c s k e (.done e)
  | exhausted {k : Nat} {e : Env} {n : UInt64} : c.eval e = .ok true → exhausted limit k = some n →
      LoopEnds limit c s k e (.stopped (.tooManyIterations n) e)
  | stopped {k : Nat} {e e' : Env} {f : Fault} : c.eval e = .ok true → Stmt.exhausted limit k = none →
      s.Ends limit e (.stopped f e') → LoopEnds limit c s k e (.stopped f e')
  | round {k : Nat} {e e' : Env} {o : Outcome} : c.eval e = .ok true → Stmt.exhausted limit k = none →
      s.Ends limit e (.done e') → LoopEnds limit c s (k + 1) e' o → LoopEnds limit c s k e o

theorem LoopEnds.of_iterate {c : Cond} {s : Stmt} {fuel n k : Nat}
    (h : iterate limit (fun e => c.eval e) (s.exec limit fuel) n k e = some o) : LoopEnds limit c s k e o := by
  induction n generalizing k e with
  | zero => cases h
  | succ n ih =>
    rw [iterate] at h
    split at h
    · next hc =>
      cases h
      exact .fault hc
    · next hc =>
      cases h
      exact .exit hc
    · next hc =>
      split at h
      · next hx =>
        cases h
        exact .exhausted hc hx
      · next hx =>
        rcases hs : s.exec limit fuel e with _ | ⟨e' | ⟨f, e'⟩⟩ <;> simp only [hs] at h
        · cases h
        · exact .round hc hx ⟨fuel, hs⟩ (ih h)
        · cases h
          exact .stopped hc hx ⟨fuel, hs⟩

theorem LoopEnds.iterate {c : Cond} {s : Stmt} {k : Nat} (h : LoopEnds limit c s k e o) :
    ∃ n, Stmt.iterate limit (fun e => c.eval e) (s.exec limit n) n k e = some o := by
  induction h with
  | fault hc => exact ⟨1, by simp only [Stmt.iterate, hc]⟩
  | exit hc => exact ⟨1, by simp only [Stmt.iterate, hc]⟩
  | exhausted hc hx => exact ⟨1, by simp only [Stmt.iterate, hc, hx]⟩
  | stopped hc hx hs =>
    obtain ⟨n, hs⟩ := hs
    exact ⟨n + 1, by simp only [Stmt.iterate, hc, hx, exec_mono (Nat.le_succ n) hs]⟩
  | round hc hx hs _ ih =>
    -- The later rounds go on with the fuel that is left of the larger of the two.
    obtain ⟨n, hs⟩ := hs
    obtain ⟨m, hm⟩ := ih
    refine ⟨max n m + 1, ?_⟩
    simp only [Stmt.iterate, hc, hx, exec_mono (Nat.le_succ_of_le (Nat.le_max_left n m)) hs]
    exact iterate_mono (fun _ _ => exec_mono (Nat.le_succ_of_le (Nat.le_max_right n m))) (Nat.le_max_right n m) hm

theorem ends_loop_iff {c : Cond} {s : Stmt} : (loop c s).Ends limit e o ↔ LoopEnds limit c s 0 e o :=
  ⟨fun ⟨_, h⟩ => LoopEnds.of_iterate h, LoopEnds.iterate⟩

/-! ### The statements of a list in turn

A list of statements nests to the left. Its run goes down to the first statement and then takes the
others one after another. -/

/-- The first statement of a list, and those behind it in the order in which they run. -/
def spine : Stmt → Stmt × List Stmt
  | seq s t => (s.spine.1, s.spine.2 ++ [t])
  | s => (s, [])

/-- Runs statements one after another. -/
def execAll (limit : Option UInt64) (fuel : Nat) : List Stmt → Env → Option Outcome
  | [], e => some (.done e)
  | s :: l, e => andThen (s.exec limit fuel e) (execAll limit fuel l)

theorem andThen_assoc (o : Option Outcome) (f g : Env → Option Outcome) :
    andThen (andThen o f) g = andThen o fun e => andThen (f e) g := by
  match o with
  | some (.done e) => rfl
  | some (.stopped f e) => rfl
  | none => rfl

theorem andThen_done (o : Option Outcome) : andThen o (fun e => some (.done e)) = o := by
  match o with
  | some (.done e) => rfl
  | some (.stopped f e) => rfl
  | none => rfl

theorem execAll_concat (fuel : Nat) (l : List Stmt) (t : Stmt) (e : Env) :
    execAll limit fuel (l ++ [t]) e = andThen (execAll limit fuel l e) (t.exec limit fuel) := by
  induction l generalizing e with
  | nil => exact andThen_done _
  | cons s l ih =>
    rw [List.cons_append, execAll, execAll, andThen_assoc]
    exact congrArg _ (funext ih)

/-- A list of statements runs along its spine. -/
theorem exec_spine (s : Stmt) (fuel : Nat) (e : Env) :
    s.exec limit fuel e = andThen (s.spine.1.exec limit fuel e) (execAll limit fuel s.spine.2) := by
  induction s generalizing e with
  | seq s t ihs _ =>
    rw [exec, ihs, andThen_assoc]
    exact congrArg _ (funext fun e => (execAll_concat fuel s.spine.2 t e).symm)
  | _ => exact (andThen_done _).symm

/-! ### Nesting

How sequences nest makes no difference to a run. -/

theorem exec_append (s t : Stmt) (fuel : Nat) (e : Env) :
    (s.append t).exec limit fuel e = andThen (s.exec limit fuel e) (t.exec limit fuel) := by
  induction t with
  | seq t u iht _ =>
    rw [append, exec, iht, andThen_assoc]
    rfl
  | _ => rfl

theorem ends_append_iff {s t : Stmt} : (s.append t).Ends limit e o ↔ (seq s t).Ends limit e o := by
  simp only [Ends, exec_append, exec]

theorem diverges_append_iff {s t : Stmt} : (s.append t).Diverges limit e ↔ (seq s t).Diverges limit e := by
  simp only [Diverges, exec_append, exec]

theorem exec_nestLeft (s : Stmt) (fuel : Nat) : s.nestLeft.exec limit fuel = s.exec limit fuel := by
  funext e
  induction s generalizing e with
  | assign x v => rfl
  | seq s t ihs iht =>
    rw [nestLeft, exec_append, ihs, exec]
    exact congrArg _ (funext iht)
  | «when» c s ih => simp only [nestLeft, exec, ih]
  | branch c s t ihs iht => simp only [nestLeft, exec, ihs, iht]
  | loop c s ih =>
    rw [nestLeft, exec, exec]
    exact congrArg (fun body => iterate limit (fun e => c.eval e) body fuel 0 e) (funext ih)

theorem ends_nestLeft_iff {s : Stmt} : s.nestLeft.Ends limit e o ↔ s.Ends limit e o := by
  simp only [Ends, exec_nestLeft]

theorem diverges_nestLeft_iff {s : Stmt} : s.nestLeft.Diverges limit e ↔ s.Diverges limit e := by
  simp only [Diverges, exec_nestLeft]

end Imp.Stmt
