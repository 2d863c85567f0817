import Imp.Semantics.Eval

/-! # Values along a spine

Sums and products without parentheses nest to the left. So an expression can also be evaluated by a walk: down
along the left operands, with each operator and its right operand put on a stack, and then back up over the stack,
with the value so far as the left operand. Only right operands are evaluated by a walk of their own. -/

namespace Imp.Expr

/-- The value at the end of the left spine, and the stack there: the lowest operator is on top. -/
def descend (env : Env) : Expr → List (Operator × Expr) → Int64 × List (Operator × Expr)
  | const n, spine => (n, spine)
  | var x, spine => (env.get x, spine)
  | binary op l r, spine => l.descend env ((op, r) :: spine)

theorem mem_descend {env : Env} {a : Expr} {spine : List (Operator × Expr)} {p : Operator × Expr}
    (h : p ∈ (a.descend env spine).2) : p ∈ spine ∨ sizeOf p.2 < sizeOf a := by
  induction a generalizing spine with
  | const n => exact .inl h
  | var x => exact .inl h
  | binary op l r ihl _ =>
    rcases ihl h with hp | hlt
    · rcases List.mem_cons.mp hp with rfl | hp
      · exact .inr (by simp +arith)
      · exact .inl hp
    · exact .inr (Nat.lt_trans hlt (by simp +arith))

/-- The value of an expression, by the walk along its spine. -/
def evalSpine (env : Env) (a : Expr) : Except Fault Int64 :=
  (a.descend env []).2.attach.foldlM (fun value ⟨(op, r), _⟩ => do op.apply value (← r.evalSpine env))
    (a.descend env []).1
termination_by sizeOf a
decreasing_by
  rename_i h
  rcases mem_descend h with hnil | hlt
  · cases hnil
  · exact hlt

end Imp.Expr
