import Imp.Proofs.Semantics.Values

/-! # Conditions evaluate all their operands

A connective evaluates its second side whatever the first one says. So the operands of all comparisons in a
condition are evaluated from left to right, and the first of them that is at fault is the fault of the condition;
the truth values of its parts decide nothing but its own. Two conditions with the same operands that are true of
the same environments can therefore not be told apart, not even by their faults. -/

namespace Imp

/-! ### Faults of two values -/

section

variable {α β γ : Type} {l : Except Fault α} {r : Except Fault β} {g : α → β → γ} {v : γ} {f : Fault}

/-- The fault that stands in place of a value. -/
def faultOf? : Except Fault α → Option Fault
  | .ok _ => none
  | .error f => some f

theorem faultOf?_eq_some_iff : faultOf? l = some f ↔ l = .error f := by
  cases l <;> simp [faultOf?]

theorem faultOf?_eq_none_iff : faultOf? l = none ↔ ∃ a, l = .ok a := by
  cases l <;> simp [faultOf?]

theorem faultOf?_both : faultOf? (do return g (← l) (← r)) = (faultOf? l).or (faultOf? r) := by
  cases l with
  | error f => rfl
  | ok a => cases r <;> rfl

theorem both_eq_ok (h : (do return g (← l) (← r)) = Except.ok v) : ∃ a b, l = .ok a ∧ r = .ok b ∧ v = g a b := by
  obtain ⟨a, hl, h⟩ := bind_eq_ok.mp h
  obtain ⟨b, hr, h⟩ := bind_eq_ok.mp h
  exact ⟨a, b, hl, hr, (Except.ok.inj h).symm⟩

end

theorem Comparison.holds_iff {op : Comparison} {a b : Int64} : op.holds a b ↔ op.Holds a.toInt b.toInt := by
  cases op <;> simp [holds, Holds, Int64.lt_iff_toInt_lt, Int64.le_iff_toInt_le, Int64.toInt_inj]

namespace Cond

variable {env : Env} {c d : Cond} {b : Bool}

/-! ### The fault and the truth of a condition -/

theorem faultOf?_eval (env : Env) (c : Cond) :
    faultOf? (c.eval env) = c.operands.findSome? fun a => faultOf? (a.eval env) := by
  induction c with
  | compare op l r =>
    change _ = ([l] ++ [r]).findSome? _
    rw [List.findSome?_append, List.findSome?_singleton, List.findSome?_singleton]
    exact faultOf?_both
  | and l r ihl ihr | or l r ihl ihr =>
    rw [operands, List.findSome?_append, ← ihl, ← ihr]
    exact faultOf?_both
  | not c ih =>
    rw [operands, ← ih, eval]
    cases c.eval env <;> rfl

theorem holds_of_eval (h : c.eval env = .ok b) : b ↔ c.Holds env := by
  induction c generalizing b with
  | compare op l r =>
    obtain ⟨a, b, hl, hr, rfl⟩ := both_eq_ok h
    rw [Holds, (Expr.exact_of_eval hl).1, (Expr.exact_of_eval hr).1]
    exact Comparison.holds_iff
  | and l r ihl ihr =>
    obtain ⟨p, q, hl, hr, rfl⟩ := both_eq_ok h
    rw [Holds, ← ihl hl, ← ihr hr]
    exact Bool.and_eq_true_iff
  | or l r ihl ihr =>
    obtain ⟨p, q, hl, hr, rfl⟩ := both_eq_ok h
    rw [Holds, ← ihl hl, ← ihr hr]
    exact Bool.or_eq_true_iff
  | not c ih =>
    obtain ⟨p, hc, h⟩ := bind_eq_ok.mp h
    cases h
    rw [Holds, ← ih hc, Bool.not_eq_true', Bool.not_eq_true]

/-- Every operand has a value. -/
theorem exists_eval_iff : (∃ b, c.eval env = .ok b) ↔ ∀ a ∈ c.operands, ∃ n, a.eval env = .ok n := by
  simp only [← faultOf?_eq_none_iff, faultOf?_eval, List.findSome?_eq_none_iff]

/-- Conditions with the same operands that are both true or both false have the same value or the same fault. -/
theorem eval_congr (ho : c.operands = d.operands) (h : c.Holds env ↔ d.Holds env) : c.eval env = d.eval env := by
  have hfault : faultOf? (c.eval env) = faultOf? (d.eval env) := by rw [faultOf?_eval, faultOf?_eval, ho]
  cases hc : c.eval env with
  | error f =>
    rw [hc] at hfault
    exact (faultOf?_eq_some_iff.mp hfault.symm).symm
  | ok b =>
    rw [hc] at hfault
    obtain ⟨b', hd⟩ := faultOf?_eq_none_iff.mp hfault.symm
    rw [hd, Bool.eq_iff_iff.mpr ((holds_of_eval hc).trans (h.trans (holds_of_eval hd).symm))]

/-- A condition has a value just where all operands of its comparisons have, and that is its truth value. Otherwise
    its fault is the one of the first operand at fault, from left to right, whatever the parts in front of it say.
    So the laws of De Morgan and of double negation hold for values and faults alike. -/
theorem eval_eager (env : Env) (c d : Cond) :
    ((∃ b, c.eval env = .ok b) ↔ ∀ a ∈ c.operands, ∃ n, a.eval env = .ok n) ∧
    (∀ b, c.eval env = .ok b ↔ (∀ a ∈ c.operands, ∃ n, a.eval env = .ok n) ∧ (b ↔ c.Holds env)) ∧
    (∀ f, c.eval env = .error f ↔ ∃ before a behind, c.operands = before ++ a :: behind ∧
      (∀ a' ∈ before, ∃ n, a'.eval env = .ok n) ∧ a.eval env = .error f) ∧
    (not (and c d)).eval env = (or (not c) (not d)).eval env ∧
    (not (or c d)).eval env = (and (not c) (not d)).eval env ∧
    (not (not c)).eval env = c.eval env := by
  refine ⟨exists_eval_iff, fun b => ⟨fun h => ?_, fun ⟨hall, hb⟩ => ?_⟩, fun f => ?_,
    eval_congr rfl Classical.not_and_iff_not_or_not, eval_congr rfl not_or, eval_congr rfl Classical.not_not⟩
  · exact ⟨exists_eval_iff.mp ⟨b, h⟩, holds_of_eval h⟩
  · obtain ⟨b', hb'⟩ := exists_eval_iff.mpr hall
    rw [hb', Bool.eq_iff_iff.mpr (hb.trans (holds_of_eval hb').symm)]
  · rw [← faultOf?_eq_some_iff, faultOf?_eval, List.findSome?_eq_some_iff]
    simp only [faultOf?_eq_some_iff, faultOf?_eq_none_iff, and_comm]

example : (or (compare .lt (.const 1) (.const 2)) (compare .lt (.binary .div (.const 1) (.const 0)) (.const 1))).eval
    .empty = .error .divisionByZero := rfl

end Cond

end Imp
