import Imp.Env
import Imp.Integer

/-! # Values of expressions and conditions

The left operand is evaluated before the right one, and both sides of a connective are evaluated
whatever the first one says: a fault on either side is a fault of the whole. -/

namespace Imp

/-- The value of an expression. -/
def Expr.eval (env : Env) : Expr → Except Fault Int64
  | const n => .ok n
  | var x => .ok (env.get x)
  | binary op l r => do
    let a ← l.eval env
    let b ← r.eval env
    op.apply a b

/-- The truth value of a condition. -/
def Cond.eval (env : Env) : Cond → Except Fault Bool
  | compare op l r => do
    let a ← l.eval env
    let b ← r.eval env
    return op.holds a b
  | and l r => do
    let p ← l.eval env
    let q ← r.eval env
    return Connective.and.apply p q
  | or l r => do
    let p ← l.eval env
    let q ← r.eval env
    return Connective.or.apply p q
  | not c => do
    let p ← c.eval env
    return !p

end Imp
