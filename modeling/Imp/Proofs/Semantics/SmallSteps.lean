import Imp.Proofs.Semantics.Rules
import Imp.Semantics.Machine

/-! # Runs in small steps

By the rules for runs, what a machine has left to do has an outcome. A step does not change it, so a
machine that has ended did so with the outcome of its start. The other way round, a statement that
ends is run to its end whatever stands behind it on the stack. A statement whose run goes on for ever
has no outcome, and its machine none either. -/

namespace Imp

variable {limit : Option UInt64} {e e' : Env} {o : Outcome} {todo : List Task}

/-! ### What is left to do -/

/-- The run of a task ends, and has this outcome. -/
def Task.Ends (limit : Option UInt64) : Task → Env → Outcome → Prop
  | start s, e, o => s.Ends limit e o
  | again c s k, e, o => Stmt.LoopEnds limit c s k e o

/-- The run of one task after another ends, and has this outcome. -/
def Task.AllEnd (limit : Option UInt64) : List Task → Env → Outcome → Prop
  | [], e, o => o = .done e
  | t :: todo, e, o => (∃ e', t.Ends limit e (.done e') ∧ AllEnd limit todo e' o) ∨
      (∃ f e', t.Ends limit e (.stopped f e') ∧ o = .stopped f e')

namespace Task

theorem AllEnd.of_done {t : Task} (ht : t.Ends limit e (.done e')) (h : AllEnd limit todo e' o) :
    AllEnd limit (t :: todo) e o := Or.inl ⟨e', ht, h⟩

theorem AllEnd.of_stopped {t : Task} {f : Fault} (ht : t.Ends limit e (.stopped f e')) :
    AllEnd limit (t :: todo) e (.stopped f e') := Or.inr ⟨f, e', ht, rfl⟩

/-- The task on top may be replaced by one that ends in the same way. -/
theorem AllEnd.replace {t t' : Task} (h : AllEnd limit (t :: todo) e o) (ht : ∀ o, t.Ends limit e o → t'.Ends limit e o) :
    AllEnd limit (t' :: todo) e o := by
  rcases h with ⟨e', hd, hrest⟩ | ⟨f, e', hs, rfl⟩
  · exact .of_done (ht _ hd) hrest
  · exact .of_stopped (ht _ hs)

/-- Two statements on top of each other are a sequence. -/
theorem AllEnd.seq {s t : Stmt} (h : AllEnd limit (.start s :: .start t :: todo) e o) :
    AllEnd limit (.start (.seq s t) :: todo) e o := by
  rcases h with ⟨e₁, hs, ⟨e₂, ht, hrest⟩ | ⟨f, e₂, ht, rfl⟩⟩ | ⟨f, e₁, hs, rfl⟩
  · exact .of_done (Stmt.ends_seq_iff.mpr (Or.inl ⟨e₁, hs, ht⟩)) hrest
  · exact .of_stopped (Stmt.ends_seq_iff.mpr (Or.inl ⟨e₁, hs, ht⟩))
  · exact .of_stopped (Stmt.ends_seq_iff.mpr (Or.inr ⟨f, e₁, hs, rfl⟩))

/-- A statement with an iteration counted behind it is a round of the loop. -/
theorem AllEnd.round {c : Cond} {s : Stmt} {k : Nat} (hc : c.eval e = .ok true) (hx : Stmt.exhausted limit k = none)
    (h : AllEnd limit (.start s :: .again c s (k + 1) :: todo) e o) : AllEnd limit (.again c s k :: todo) e o := by
  rcases h with ⟨e₁, hs, ⟨e₂, hl, hrest⟩ | ⟨f, e₂, hl, rfl⟩⟩ | ⟨f, e₁, hs, rfl⟩
  · exact .of_done (.round hc hx hs hl) hrest
  · exact .of_stopped (.round hc hx hs hl)
  · exact .of_stopped (.stopped hc hx hs)

end Task

namespace Machine

theorem begin_of_exhausted {c : Cond} {s : Stmt} {k : Nat} {n : UInt64} (h : Stmt.exhausted limit k = some n) :
    begin limit todo e c s k = ended (.stopped (.tooManyIterations n) e) := by
  obtain ⟨rfl, hn⟩ := Option.filter_eq_some_iff.mp h
  exact if_pos (of_decide_eq_true hn)

theorem begin_of_not_exhausted {c : Cond} {s : Stmt} {k : Nat} (h : Stmt.exhausted limit k = none) :
    begin limit todo e c s k = running (.start s :: .again c s (k + 1) :: todo) e := by
  cases limit with
  | none => rfl
  | some n => exact if_neg fun hn => Option.filter_eq_none_iff.mp h n rfl (decide_eq_true hn)

/-! ### From steps to runs -/

/-- What the machine has left to do ends with this outcome. -/
def Leads (limit : Option UInt64) : Machine → Outcome → Prop
  | running todo e, o => Task.AllEnd limit todo e o
  | ended o', o => o = o'

theorem evaluated_leads_iff {α : Type} {next : α → Machine} {r : Except Fault α} :
    (evaluated e next r).Leads limit o ↔
      (∃ v, r = .ok v ∧ (next v).Leads limit o) ∨ (∃ f, r = .error f ∧ o = .stopped f e) := by
  cases r <;> simp [evaluated, Leads]

theorem leads_of_start {s : Stmt} (h : (start todo e s).Leads limit o) : Task.AllEnd limit (.start s :: todo) e o := by
  cases s with
  | assign x v =>
    rcases evaluated_leads_iff.mp h with ⟨n, hv, hrest⟩ | ⟨f, hv, rfl⟩
    · exact .of_done (Stmt.ends_assign_iff.mpr (Or.inl ⟨n, hv, rfl⟩)) hrest
    · exact .of_stopped (Stmt.ends_assign_iff.mpr (Or.inr ⟨f, hv, rfl⟩))
  | seq s t => exact .seq h
  | «when» c s =>
    rcases evaluated_leads_iff.mp h with ⟨b, hc, hrest⟩ | ⟨f, hc, rfl⟩
    · cases b with
      | true => exact Task.AllEnd.replace hrest fun o hs => Stmt.ends_when_iff.mpr (Or.inl ⟨hc, hs⟩)
      | false => exact .of_done (Stmt.ends_when_iff.mpr (Or.inr (Or.inl ⟨hc, rfl⟩))) hrest
    · exact .of_stopped (Stmt.ends_when_iff.mpr (Or.inr (Or.inr ⟨f, hc, rfl⟩)))
  | branch c s t =>
    rcases evaluated_leads_iff.mp h with ⟨b, hc, hrest⟩ | ⟨f, hc, rfl⟩
    · cases b with
      | true => exact Task.AllEnd.replace hrest fun o hs => Stmt.ends_branch_iff.mpr (Or.inl ⟨hc, hs⟩)
      | false => exact Task.AllEnd.replace hrest fun o ht => Stmt.ends_branch_iff.mpr (Or.inr (Or.inl ⟨hc, ht⟩))
    · exact .of_stopped (Stmt.ends_branch_iff.mpr (Or.inr (Or.inr ⟨f, hc, rfl⟩)))
  | loop c s => exact Task.AllEnd.replace h fun o hl => Stmt.ends_loop_iff.mpr hl

/-- A step does not change the outcome of what is left to do. -/
theorem Leads.of_step {m : Machine} (h : (m.step limit).Leads limit o) : m.Leads limit o := by
  match m with
  | ended o' => exact h
  | running [] e => exact h
  | running (.start s :: todo) e => exact leads_of_start h
  | running (.again c s k :: todo) e =>
    rcases evaluated_leads_iff.mp h with ⟨b, hc, hrest⟩ | ⟨f, hc, rfl⟩
    · cases b with
      | false => exact Task.AllEnd.of_done (.exit hc) hrest
      | true =>
        simp only [if_true] at hrest
        match hx : Stmt.exhausted limit k with
        | some n =>
          rw [begin_of_exhausted hx] at hrest
          obtain rfl := hrest
          exact Task.AllEnd.of_stopped (.exhausted hc hx)
        | none =>
          rw [begin_of_not_exhausted hx] at hrest
          exact Task.AllEnd.round hc hx hrest
    · exact Task.AllEnd.of_stopped (.fault hc)

theorem Leads.of_after {m : Machine} {n : Nat} (h : (m.after limit n).Leads limit o) : m.Leads limit o := by
  induction n generalizing m with
  | zero => exact h
  | succ n ih => exact (ih h).of_step

theorem load_leads_iff {s : Stmt} : (load s e).Leads limit o ↔ s.Ends limit e o := by
  constructor
  · rintro (⟨e', hs, rfl⟩ | ⟨f, e', hs, rfl⟩) <;> exact hs
  · intro h
    match o, h with
    | .done e', h => exact Task.AllEnd.of_done h rfl
    | .stopped f e', h => exact Task.AllEnd.of_stopped h

/-! ### From runs to steps -/

/-- Some steps lead from the one machine to the other. -/
def Reaches (limit : Option UInt64) (m m' : Machine) : Prop := ∃ n, m.after limit n = m'

theorem Reaches.refl (limit : Option UInt64) (m : Machine) : m.Reaches limit m := ⟨0, rfl⟩

theorem Reaches.trans {m m' m'' : Machine} (h : m.Reaches limit m') (h' : m'.Reaches limit m'') : m.Reaches limit m'' := by
  obtain ⟨n, rfl⟩ := h
  obtain ⟨k, rfl⟩ := h'
  exact ⟨n + k, after_add limit m n k⟩

theorem Reaches.of_step {m m' : Machine} (h : (m.step limit).Reaches limit m') : m.Reaches limit m' := by
  obtain ⟨n, rfl⟩ := h
  exact ⟨n + 1, rfl⟩

/-- How the machine goes on when the task on top has had this outcome. -/
def resume (todo : List Task) : Outcome → Machine
  | .done e => running todo e
  | .stopped f e => ended (.stopped f e)

theorem step_again {c : Cond} {s : Stmt} {k : Nat} : (running (.again c s k :: todo) e).step limit =
    evaluated e (fun b => if b then begin limit todo e c s k else running todo e) (c.eval e) := rfl

theorem loop_reaches {c : Cond} {s : Stmt} {k : Nat}
    (hs : ∀ {e o} todo, s.Ends limit e o → (running (.start s :: todo) e).Reaches limit (resume todo o))
    (h : Stmt.LoopEnds limit c s k e o) (todo : List Task) :
    (running (.again c s k :: todo) e).Reaches limit (resume todo o) := by
  induction h with
  | fault hc | exit hc =>
    refine .of_step ?_
    rw [step_again, hc]
    exact .refl ..
  | exhausted hc hx =>
    refine .of_step ?_
    rw [step_again, hc]
    simp only [evaluated, if_true, begin_of_exhausted hx]
    exact .refl ..
  | stopped hc hx hbody =>
    refine .of_step ?_
    rw [step_again, hc]
    simp only [evaluated, if_true, begin_of_not_exhausted hx]
    exact hs _ hbody
  | round hc hx hbody _ ih =>
    refine .of_step ?_
    rw [step_again, hc]
    simp only [evaluated, if_true, begin_of_not_exhausted hx]
    exact (hs _ hbody).trans ih

/-- The machine runs a statement to its end, whatever stands behind it on the stack. -/
theorem start_reaches {s : Stmt} (h : s.Ends limit e o) (todo : List Task) :
    (running (.start s :: todo) e).Reaches limit (resume todo o) := by
  induction s generalizing e o todo with
  | assign x v =>
    refine .of_step ⟨0, ?_⟩
    rcases Stmt.ends_assign_iff.mp h with ⟨n, hv, rfl⟩ | ⟨f, hv, rfl⟩ <;> simp [step, start, hv, evaluated, resume]
  | seq s t ihs iht =>
    refine .of_step ?_
    rcases Stmt.ends_seq_iff.mp h with ⟨e', hs, ht⟩ | ⟨f, e', hs, rfl⟩
    · exact (ihs hs (.start t :: todo)).trans (iht ht todo)
    · exact ihs hs (.start t :: todo)
  | «when» c s ih =>
    refine .of_step ?_
    rcases Stmt.ends_when_iff.mp h with ⟨hc, hs⟩ | ⟨hc, rfl⟩ | ⟨f, hc, rfl⟩ <;> simp only [step, start, hc, evaluated]
    · exact ih hs todo
    · exact .refl ..
    · exact .refl ..
  | branch c s t ihs iht =>
    refine .of_step ?_
    rcases Stmt.ends_branch_iff.mp h with ⟨hc, hs⟩ | ⟨hc, ht⟩ | ⟨f, hc, rfl⟩ <;> simp only [step, start, hc, evaluated]
    · exact ihs hs todo
    · exact iht ht todo
    · exact .refl ..
  | loop c s ih =>
    refine .of_step ?_
    exact loop_reaches (fun todo hs => ih hs todo) (Stmt.ends_loop_iff.mp h) todo

theorem ends_of_ended {s : Stmt} (h : (load s e).EndsIn limit o) : s.Ends limit e o := by
  obtain ⟨n, hn⟩ := h
  have hleads : ((load s e).after limit n).Leads limit o := by rw [hn]; exact rfl
  exact load_leads_iff.mp hleads.of_after

/-! ### Adequacy -/

/-- A run reaches its end if and only if the machine comes to have nothing left to do, in the same
    environment; it is stopped if and only if the machine is, by the same fault and in the same
    environment; and it goes on for ever if and only if the machine does. -/
theorem exec_adequate (limit : Option UInt64) (s : Stmt) (e : Env) :
    (∀ e', s.Ends limit e (.done e') ↔ ∃ n, (load s e).after limit n = running [] e') ∧
    (∀ f e', s.Ends limit e (.stopped f e') ↔ ∃ n, (load s e).after limit n = ended (.stopped f e')) ∧
    (s.Diverges limit e ↔ (load s e).NeverEnds limit) := by
  refine ⟨fun e' => ⟨fun h => start_reaches h [], fun ⟨n, hn⟩ => ?_⟩,
    fun f e' => ⟨fun h => start_reaches h [], ends_of_ended⟩, ?_⟩
  · refine ends_of_ended ⟨n + 1, ?_⟩
    rw [after_add, hn]
    rfl
  · rw [Stmt.diverges_iff]
    constructor
    · exact fun h n o hn => h o (ends_of_ended ⟨n, hn⟩)
    · intro h o hs
      obtain ⟨n, hn⟩ := start_reaches hs []
      match o, hn with
      | .stopped f e', hn => exact h n _ hn
      | .done e', hn =>
        refine h (n + 1) (.done e') ?_
        rw [after_add, load, hn]
        rfl

end Machine

end Imp
