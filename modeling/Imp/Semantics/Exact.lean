import Imp.Env
import Imp.Fault

/-! # Values without bounds

What expressions and conditions mean over all integers: operators give the exact result, quotients
round toward negative infinity, and a variable without a binding is zero. An operation is at fault if
its quotient does not exist or its exact result does not fit into 64 bits. The operations of an
expression come in the order in which they are carried out: those of the left operand, those of the
right one, and then the operation itself. -/

namespace Imp

/-! ### Operators -/

/-- The integer fits into 64 bits. -/
def FitsWord (n : Int) : Prop := Int64.minValue.toInt ≤ n ∧ n ≤ Int64.maxValue.toInt

instance (n : Int) : Decidable (FitsWord n) := inferInstanceAs (Decidable (_ ∧ _))

/-- The exact result of an operator. There is no quotient by zero. -/
def Operator.result? : Operator → Int → Int → Option Int
  | add, a, b => some (a + b)
  | sub, a, b => some (a - b)
  | mul, a, b => some (a * b)
  | div, a, b => if b = 0 then none else some (a.fdiv b)

/-- The fault of an operation on integers. -/
def Operator.fault? (op : Operator) (a b : Int) : Option Fault :=
  match op.result? a b with
  | none => some .divisionByZero
  | some n => if FitsWord n then none else some (.overflow op)

/-- The comparison holds between two integers. -/
def Comparison.Holds : Comparison → Int → Int → Prop
  | lt, a, b => a < b
  | le, a, b => a ≤ b
  | gt, a, b => a > b
  | ge, a, b => a ≥ b
  | eq, a, b => a = b
  | ne, a, b => a ≠ b

/-! ### Expressions -/

/-- The exact value of an expression. A quotient by zero counts as zero. -/
def Expr.exact (env : Env) : Expr → Int
  | const n => n.toInt
  | var x => (env.get x).toInt
  | binary op l r => (op.result? (l.exact env) (r.exact env)).getD 0

/-- The operations of an expression with their operands, in the order in which they are carried out. -/
def Expr.operations : Expr → List (Operator × Expr × Expr)
  | const _ => []
  | var _ => []
  | binary op l r => l.operations ++ r.operations ++ [(op, l, r)]

/-- The fault of the first operation that is at fault. -/
def Expr.firstFault? (env : Env) (a : Expr) : Option Fault :=
  a.operations.findSome? fun (op, l, r) => op.fault? (l.exact env) (r.exact env)

/-! ### Conditions -/

/-- The condition is true of the exact values. -/
def Cond.Holds (env : Env) : Cond → Prop
  | compare op l r => op.Holds (l.exact env) (r.exact env)
  | and l r => l.Holds env ∧ r.Holds env
  | or l r => l.Holds env ∨ r.Holds env
  | not c => ¬ c.Holds env

/-- The operands of the comparisons of a condition, from left to right. -/
def Cond.operands : Cond → List Expr
  | compare _ l r => [l, r]
  | and l r => l.operands ++ r.operands
  | or l r => l.operands ++ r.operands
  | not c => c.operands

end Imp
