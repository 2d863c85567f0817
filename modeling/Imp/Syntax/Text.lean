import Imp.Syntax

/-! # The written form of a tree

Every operation on values and every joined condition stands in parentheses, so nothing hangs on how
tightly an operator binds. A comparison and a negated condition stand bare. -/

namespace Imp

/-- An expression as source text. -/
def Expr.text : Expr → String
  | const n => toString n.toInt
  | var x => x
  | binary op l r => "(" ++ l.text ++ " " ++ op.symbol ++ " " ++ r.text ++ ")"

/-- A condition as source text. -/
def Cond.text : Cond → String
  | compare op l r => l.text ++ " " ++ op.symbol ++ " " ++ r.text
  | and l r => "(" ++ l.text ++ " and " ++ r.text ++ ")"
  | or l r => "(" ++ l.text ++ " or " ++ r.text ++ ")"
  | not c => "not " ++ c.text

/-- A statement as source text. -/
def Stmt.text : Stmt → String
  | assign x e => x ++ " := " ++ e.text
  | seq s t => s.text ++ " ; " ++ t.text
  | when c s => "if " ++ c.text ++ " then " ++ s.text ++ " end"
  | branch c s t => "if " ++ c.text ++ " then " ++ s.text ++ " else " ++ t.text ++ " end"
  | loop c s => "while " ++ c.text ++ " do " ++ s.text ++ " end"

end Imp
