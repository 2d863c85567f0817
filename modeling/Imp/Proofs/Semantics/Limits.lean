import Imp.Proofs.Integer.Exact
import Imp.Proofs.Semantics.SmallSteps
import Mathlib.Data.Nat.Find

/-! # Limits on loops

A limit changes a run in one place only: a loop whose condition holds, and which has begun as many
iterations as it may, is stopped there. Up to that step the machine with the limit and the machine
without it are the same. So everything hangs on how many iterations a loop has begun when it begins one
more, and the most that any execution of a loop begins is the threshold: with a limit below it a run is
stopped, and with any other it goes as it does without a limit. -/

namespace Imp

/-! ### Faults of values -/

section

variable {e : Env} {n : UInt64}

theorem bind_ne_error {α β : Type} {r : Except Fault α} {next : α → Except Fault β} {f : Fault} (hr : r ≠ .error f)
    (hn : ∀ a, next a ≠ .error f) : (r >>= next) ≠ .error f := by
  cases r with
  | error f' =>
    rintro ⟨⟩
    exact hr rfl
  | ok a => exact hn a

theorem Operator.apply_ne_tooManyIterations {op : Operator} {a b : Int64} :
    op.apply a b ≠ .error (.tooManyIterations n) := by
  intro h
  rcases Operator.fault?_eq_some_iff.mp (Operator.apply_eq_error_iff.mp h) with ⟨hf, -⟩ | ⟨hf, -⟩
  · cases hf
  · cases hf

theorem Expr.eval_ne_tooManyIterations {v : Expr} : v.eval e ≠ .error (.tooManyIterations n) := by
  induction v with
  | const m => nofun
  | var x => nofun
  | binary op l r ihl ihr =>
    exact bind_ne_error ihl fun a => bind_ne_error ihr fun b => Operator.apply_ne_tooManyIterations

theorem Cond.eval_ne_tooManyIterations {c : Cond} : c.eval e ≠ .error (.tooManyIterations n) := by
  induction c with
  | compare op l r =>
    exact bind_ne_error Expr.eval_ne_tooManyIterations fun a => bind_ne_error Expr.eval_ne_tooManyIterations fun b => nofun
  | and l r ihl ihr | or l r ihl ihr =>
    exact bind_ne_error ihl fun p => bind_ne_error ihr fun q => nofun
  | not c ih => exact bind_ne_error ih fun p => nofun

end

namespace Machine

variable {limit : Option UInt64} {m : Machine} {N : UInt64} {b k n : Nat} {o : Outcome}

theorem step_after (m : Machine) (n : Nat) : (m.after limit n).step limit = m.after limit (n + 1) := by
  rw [after_add]
  rfl

theorem endsIn_of_step (h : (m.step limit).EndsIn limit o) : m.EndsIn limit o := by
  obtain ⟨n, hn⟩ := h
  exact ⟨n + 1, hn⟩

theorem endsIn_load_iff {s : Stmt} {e : Env} : (load s e).EndsIn limit o ↔ s.Ends limit e o := by
  constructor
  · exact ends_of_ended
  · intro h
    obtain ⟨n, hn⟩ := start_reaches h []
    match o, hn with
    | .stopped f e', hn => exact ⟨n, hn⟩
    | .done e', hn =>
      refine ⟨n + 1, ?_⟩
      rw [← step_after, load, hn]
      rfl

/-! ### Another iteration -/

/-- The next step begins another iteration of a loop that has begun so many, unless a limit forbids it. -/
inductive Begins : Machine → Nat → Prop where
  | intro {c : Cond} {s : Stmt} {k : Nat} {todo : List Task} {e : Env} :
      c.eval e = .ok true → Begins (running (.again c s k :: todo) e) k

theorem Begins.step_none (h : m.Begins k) : ∃ t ∈ (m.step none).todo, t.begun = k + 1 := by
  obtain ⟨hc⟩ := h
  rw [step_again, hc]
  exact ⟨_, List.mem_cons_of_mem _ List.mem_cons_self, rfl⟩

/-- A loop that has begun as many iterations as it may is stopped. -/
theorem Begins.step_of_le (h : m.Begins k) (hk : N.toNat ≤ k) :
    ∃ e, m.step (some N) = ended (.stopped (.tooManyIterations N) e) := by
  obtain @⟨c, s, k, todo, e, hc⟩ := h
  refine ⟨e, ?_⟩
  rw [step_again, hc]
  exact if_pos hk

/-- Everywhere else a limit makes no difference. -/
theorem step_eq_of_lt (h : ∀ k, m.Begins k → k < N.toNat) : m.step (some N) = m.step none := by
  match m with
  | ended o => rfl
  | running [] e => rfl
  | running (.start s :: todo) e => rfl
  | running (.again c s k :: todo) e =>
    rw [step_again, step_again]
    rcases hc : c.eval e with f | b
    · rfl
    · cases b with
      | false => rfl
      | true => exact if_neg (Nat.not_le_of_lt (h k ⟨hc⟩))

/-! ### The iterations that have begun -/

theorem mem_todo_evaluated {α : Type} {e : Env} {next : α → Machine} {r : Except Fault α} {t : Task}
    (h : t ∈ (evaluated e next r).todo) : ∃ v, r = .ok v ∧ t ∈ (next v).todo := by
  cases r with
  | error f => cases h
  | ok v => exact ⟨v, rfl, h⟩

theorem mem_or_begun_eq_zero {todo : List Task} {t t' : Task} (ht : t'.begun = 0) (h : t ∈ t' :: todo) :
    t ∈ todo ∨ t.begun = 0 := by
  rcases List.mem_cons.mp h with rfl | h
  · exact Or.inr ht
  · exact Or.inl h

theorem mem_todo_start {s : Stmt} {todo : List Task} {e : Env} {t : Task} (h : t ∈ (start todo e s).todo) :
    t ∈ todo ∨ t.begun = 0 := by
  cases s with
  | assign x v =>
    obtain ⟨_, -, h⟩ := mem_todo_evaluated h
    exact Or.inl h
  | seq s s' =>
    rcases mem_or_begun_eq_zero rfl h with h | h
    · exact mem_or_begun_eq_zero rfl h
    · exact Or.inr h
  | «when» c s =>
    obtain ⟨b, -, h⟩ := mem_todo_evaluated h
    cases b with
    | false => exact Or.inl h
    | true => exact mem_or_begun_eq_zero rfl h
  | branch c s s' =>
    obtain ⟨b, -, h⟩ := mem_todo_evaluated h
    exact mem_or_begun_eq_zero rfl h
  | loop c s => exact mem_or_begun_eq_zero rfl h

/-- A step raises the count of one loop at most, the one that it begins another iteration of. -/
theorem mem_todo_step {t : Task} (h : t ∈ (m.step none).todo) :
    t ∈ m.todo ∨ t.begun = 0 ∨ ∃ k, m.Begins k ∧ t.begun = k + 1 := by
  match m with
  | ended o => cases h
  | running [] e => cases h
  | running (.start s :: todo) e =>
    rcases mem_todo_start h with h | h
    · exact Or.inl (List.mem_cons_of_mem _ h)
    · exact Or.inr (Or.inl h)
  | running (.again c s k :: todo) e =>
    obtain ⟨b, hc, h⟩ := mem_todo_evaluated h
    cases b with
    | false => exact Or.inl (List.mem_cons_of_mem _ h)
    | true =>
      rcases List.mem_cons.mp h with rfl | h
      · exact Or.inr (Or.inl rfl)
      · rcases List.mem_cons.mp h with rfl | h
        · exact Or.inr (Or.inr ⟨k, ⟨hc⟩, rfl⟩)
        · exact Or.inl (List.mem_cons_of_mem _ h)

theorem Begins.mem_todo (h : m.Begins k) : ∃ t ∈ m.todo, t.begun = k := by
  obtain ⟨hc⟩ := h
  exact ⟨_, List.mem_cons_self, rfl⟩

theorem begun_load {s : Stmt} {e : Env} : ∀ t ∈ (load s e).todo, t.begun = 0 := by
  intro t ht
  obtain rfl := List.mem_singleton.mp ht
  rfl

theorem begun_le_add (h : ∀ t ∈ m.todo, t.begun ≤ b) (n : Nat) : ∀ t ∈ (m.after none n).todo, t.begun ≤ b + n := by
  induction n with
  | zero => exact h
  | succ n ih =>
    intro t ht
    rw [← step_after] at ht
    rcases mem_todo_step ht with ht | ht | ⟨k, hk, ht⟩
    · exact Nat.le_succ_of_le (ih t ht)
    · omega
    · -- The count was one less in the task that the step took from the stack.
      obtain ⟨t', ht', rfl⟩ := hk.mem_todo
      have := ih t' ht'
      omega

/-! ### Runs that stay below a limit -/

/-- In the first `n` steps, no loop that has begun `b` iterations begins another. -/
def BeginsBelow (m : Machine) (b n : Nat) : Prop := ∀ i < n, ∀ k, (m.after none i).Begins k → k < b

theorem BeginsBelow.mono {b' : Nat} (h : m.BeginsBelow b n) (hb : b ≤ b') : m.BeginsBelow b' n := by
  intro i hi k hk
  exact Nat.lt_of_lt_of_le (h i hi k hk) hb

theorem BeginsBelow.after_eq (h : m.BeginsBelow N.toNat n) : m.after (some N) n = m.after none n := by
  induction n with
  | zero => rfl
  | succ n ih =>
    have hn := ih fun i hi => h i (Nat.lt_succ_of_lt hi)
    rw [← step_after, ← step_after, hn]
    exact step_eq_of_lt (h n (Nat.lt_succ_self n))

theorem BeginsBelow.begun_le (h : m.BeginsBelow b n) (hm : ∀ t ∈ m.todo, t.begun ≤ b) :
    ∀ t ∈ (m.after none n).todo, t.begun ≤ b := by
  induction n with
  | zero => exact hm
  | succ n ih =>
    intro t ht
    rw [← step_after] at ht
    rcases mem_todo_step ht with ht | ht | ⟨k, hk, ht⟩
    · exact ih (fun i hi => h i (Nat.lt_succ_of_lt hi)) t ht
    · omega
    · rw [ht]
      exact h n (Nat.lt_succ_self n) k hk

/-- A run stays below its limit, or is stopped. -/
theorem beginsBelow_or_stopped (N : UInt64) (m : Machine) (n : Nat) :
    m.BeginsBelow N.toNat n ∨ ∃ e, m.EndsIn (some N) (.stopped (.tooManyIterations N) e) := by
  -- The first step decides: if it is within the limit, both machines take it and go on from the same one.
  induction n generalizing m with
  | zero => exact Or.inl fun i hi => absurd hi (Nat.not_lt_zero i)
  | succ n ih =>
    by_cases h : ∀ k, m.Begins k → k < N.toNat
    · rcases ih (m.step none) with hrest | ⟨e, he⟩
      · refine Or.inl fun i hi => ?_
        cases i with
        | zero => exact h
        | succ i => exact hrest i (Nat.lt_of_succ_lt_succ hi)
      · rw [← step_eq_of_lt h] at he
        exact Or.inr ⟨e, endsIn_of_step he⟩
    · simp only [not_forall, Nat.not_lt] at h
      obtain ⟨k, hk, hle⟩ := h
      obtain ⟨e, he⟩ := hk.step_of_le hle
      exact Or.inr ⟨e, 1, he⟩

theorem beginsBelow_of_ended (h : m.after (some N) n = ended o) (ho : ∀ e, o ≠ .stopped (.tooManyIterations N) e) :
    m.BeginsBelow N.toNat n := by
  rcases beginsBelow_or_stopped N m n with hb | ⟨e, he⟩
  · exact hb
  · exact absurd (EndsIn.unique ⟨n, h⟩ he) (ho e)

/-! ### The peak -/

theorem exists_isPeak (h : ∀ n, ∀ t ∈ (m.after limit n).todo, t.begun ≤ b) : ∃ k, m.IsPeak limit k := by
  classical
  -- The peak is the least of all bounds, so what lies below it is none.
  have hex : ∃ b, ∀ n, ∀ t ∈ (m.after limit n).todo, t.begun ≤ b := ⟨b, h⟩
  refine ⟨Nat.find hex, Nat.find_spec hex, ?_⟩
  rcases Nat.eq_zero_or_pos (Nat.find hex) with hz | hpos
  · exact Or.inl hz
  · have hmin := Nat.find_min hex (Nat.sub_one_lt_of_lt hpos)
    simp only [not_forall, Nat.not_le] at hmin
    obtain ⟨n, t, ht, hlt⟩ := hmin
    have hle := Nat.find_spec hex n t ht
    exact Or.inr ⟨n, t, ht, by omega⟩

theorem exists_isPeak_of_ended {s : Stmt} {e : Env} (h : (load s e).after none n = ended o) :
    ∃ k, (load s e).IsPeak none k := by
  -- Up to the end there are no more iterations than steps, and behind it there are no tasks.
  refine exists_isPeak (b := n) fun i t ht => ?_
  rcases Nat.le_total i n with hi | hi
  · have := begun_le_add (fun t ht => Nat.le_of_eq (begun_load t ht)) i t ht
    omega
  · obtain ⟨j, rfl⟩ := Nat.exists_eq_add_of_le hi
    rw [after_add, h, after_ended] at ht
    cases ht

theorem IsPeak.beginsBelow (h : m.IsPeak none k) (n : Nat) : m.BeginsBelow k n := by
  intro i _ j hj
  obtain ⟨t, ht, hbegun⟩ := hj.step_none
  rw [step_after] at ht
  have := h.1 (i + 1) t ht
  omega

/-- With a limit below its peak, a run is stopped. -/
theorem IsPeak.stopped_of_lt (h : m.IsPeak none k) (hm : ∀ t ∈ m.todo, t.begun ≤ N.toNat) (hk : N.toNat < k) :
    ∃ e, m.EndsIn (some N) (.stopped (.tooManyIterations N) e) := by
  rcases h.2 with rfl | ⟨n, t, ht, rfl⟩
  · exact absurd hk (Nat.not_lt_zero _)
  · rcases beginsBelow_or_stopped N m n with hb | he
    · exact absurd (hb.begun_le hm t ht) (Nat.not_le_of_lt hk)
    · exact he

/-! ### The fault that reports the limit -/

theorem evaluated_eq_ended {α : Type} {e : Env} {next : α → Machine} {r : Except Fault α}
    (h : evaluated e next r = ended o) : (∃ f, r = .error f ∧ o = .stopped f e) ∨ ∃ v, r = .ok v ∧ next v = ended o := by
  cases r with
  | error f =>
    cases h
    exact Or.inl ⟨f, rfl, rfl⟩
  | ok v => exact Or.inr ⟨v, rfl, h⟩

theorem limit_of_step {e : Env} (h : m.step limit = ended (.stopped (.tooManyIterations N) e)) :
    m = ended (.stopped (.tooManyIterations N) e) ∨ limit = some N := by
  match m with
  | ended o => exact Or.inl h
  | running [] e' => cases h
  | running (.start s :: todo) e' =>
    cases s with
    | assign x v =>
      rcases evaluated_eq_ended h with ⟨f, hf, ho⟩ | ⟨_, -, h⟩
      · cases ho
        exact absurd hf Expr.eval_ne_tooManyIterations
      · cases h
    | «when» c s | branch c s s' =>
      rcases evaluated_eq_ended h with ⟨f, hf, ho⟩ | ⟨_, -, h⟩
      · cases ho
        exact absurd hf Cond.eval_ne_tooManyIterations
      · cases h
    | seq s s' | loop c s => cases h
  | running (.again c s k :: todo) e' =>
    rcases evaluated_eq_ended h with ⟨f, hf, ho⟩ | ⟨b, -, h⟩
    · cases ho
      exact absurd hf Cond.eval_ne_tooManyIterations
    · cases b with
      | false => cases h
      | true =>
        cases hx : Stmt.exhausted limit k with
        | none =>
          rw [if_pos rfl, begin_of_not_exhausted hx] at h
          cases h
        | some n =>
          rw [if_pos rfl, begin_of_exhausted hx] at h
          cases h
          exact Or.inr (Option.filter_eq_some_iff.mp hx).1

theorem limit_of_endsIn {todo : List Task} {e e' : Env}
    (h : (running todo e).EndsIn limit (.stopped (.tooManyIterations N) e')) : limit = some N := by
  obtain ⟨n, hn⟩ := h
  induction n with
  | zero => cases hn
  | succ n ih =>
    rw [← step_after] at hn
    rcases limit_of_step hn with h | h
    · exact ih h
    · exact h

end Machine

/-! ### The threshold -/

namespace Stmt

theorem Ends.limit_eq {limit : Option UInt64} {N : UInt64} {s : Stmt} {e e' : Env}
    (h : s.Ends limit e (.stopped (.tooManyIterations N) e')) : limit = some N :=
  Machine.limit_of_endsIn (Machine.endsIn_load_iff.mpr h)

/-- A limit only cuts a run short. What a run ends in below its limit, it ends in with any larger limit
    and with none. A run that ends without a limit has a peak, the most iterations that any single
    execution of a loop begins: with that limit or a larger one it ends in the same way, and with a
    smaller one it is stopped and the limit is reported. Nothing else is ever reported as the limit. -/
theorem limit_threshold (s : Stmt) (e : Env) :
    (∀ N M : UInt64, N ≤ M → ∀ o, s.Ends (some N) e o → (∀ n e', o ≠ .stopped (.tooManyIterations n) e') →
      s.Ends (some M) e o ∧ s.Ends none e o) ∧
    (∀ o, s.Ends none e o → ∃ k, (Machine.load s e).IsPeak none k ∧
      (∀ N : UInt64, k ≤ N.toNat → s.Ends (some N) e o) ∧
      (∀ N : UInt64, N.toNat < k → ∃ e', s.Ends (some N) e (.stopped (.tooManyIterations N) e'))) ∧
    (∀ limit n e', s.Ends limit e (.stopped (.tooManyIterations n) e') → limit = some n) := by
  simp only [← Machine.endsIn_load_iff]
  refine ⟨fun N M hNM o ⟨n, hn⟩ ho => ?_, fun o ⟨n, hn⟩ => ?_, fun limit n e' h => Machine.limit_of_endsIn h⟩
  · -- The run has stayed below `N`, so below `M` as well.
    have hb := Machine.beginsBelow_of_ended hn (ho N)
    have hnone : (Machine.load s e).after none n = .ended o := by rw [← hb.after_eq, hn]
    refine ⟨⟨n, ?_⟩, n, hnone⟩
    rw [(hb.mono (UInt64.le_iff_toNat_le.mp hNM)).after_eq, hnone]
  · obtain ⟨k, hk⟩ := Machine.exists_isPeak_of_ended hn
    refine ⟨k, hk, fun N hN => ⟨n, ?_⟩, fun N hN => hk.stopped_of_lt (fun t ht => ?_) hN⟩
    · rw [((hk.beginsBelow n).mono hN).after_eq, hn]
    · rw [Machine.begun_load t ht]
      exact Nat.zero_le _

theorem limit_threshold_counting :
    let s := loop (.compare .lt (.var "x") (.const 2)) (.assign "x" (.binary .add (.var "x") (.const 1)))
    let o := Outcome.done (.ofList [("x", 2)])
    (2 : UInt64) ≤ 3 ∧ s.Ends (some 2) .empty o ∧ (∀ n e', o ≠ .stopped (.tooManyIterations n) e') ∧
      s.Ends (some 3) .empty o ∧ s.Ends none .empty o ∧
      ∃ k, (Machine.load s .empty).IsPeak none k ∧ ∀ N : UInt64, k ≤ N.toNat → s.Ends (some N) .empty o := by
  intro s o
  have hN : (2 : UInt64) ≤ 3 := by decide
  have hends : s.Ends (some 2) .empty o := ⟨3, by decide⟩
  have ho : ∀ n e', o ≠ .stopped (.tooManyIterations n) e' := nofun
  obtain ⟨hraise, hpeak, -⟩ := limit_threshold s .empty
  obtain ⟨h3, hnone⟩ := hraise 2 3 hN o hends ho
  obtain ⟨k, hk, hle, -⟩ := hpeak o hnone
  exact ⟨hN, hends, ho, h3, hnone, k, hk, hle⟩

end Stmt

end Imp
