import Imp.Env
import Imp.Syntax

/-! # The variables of a tree

Which names a tree reads and assigns, and what becomes of it when its variables are given other
names. -/

namespace Imp

/-! ### Occurrences -/

/-- The names that an expression reads. -/
def Expr.names : Expr → List String
  | const _ => []
  | var x => [x]
  | binary _ l r => l.names ++ r.names

/-- The names that a condition reads. -/
def Cond.names : Cond → List String
  | compare _ l r => l.names ++ r.names
  | and l r => l.names ++ r.names
  | or l r => l.names ++ r.names
  | not c => c.names

/-- The names that a statement reads or assigns, in the order in which they are written. -/
def Stmt.names : Stmt → List String
  | assign x v => x :: v.names
  | seq s t => s.names ++ t.names
  | when c s => c.names ++ s.names
  | branch c s t => c.names ++ s.names ++ t.names
  | loop c s => c.names ++ s.names

/-- The names that a statement assigns. -/
def Stmt.assigned : Stmt → List String
  | assign x _ => [x]
  | seq s t => s.assigned ++ t.assigned
  | when _ s => s.assigned
  | branch _ s t => s.assigned ++ t.assigned
  | loop _ s => s.assigned

theorem Stmt.assigned_subset_names (s : Stmt) : ∀ x ∈ s.assigned, x ∈ s.names := by
  induction s <;> simp_all [assigned, names]
  all_goals grind

/-! ### Renaming -/

/-- An expression with other names. -/
def Expr.rename (f : String → String) : Expr → Expr
  | const n => const n
  | var x => var (f x)
  | binary op l r => binary op (l.rename f) (r.rename f)

/-- A condition with other names. -/
def Cond.rename (f : String → String) : Cond → Cond
  | compare op l r => compare op (l.rename f) (r.rename f)
  | and l r => and (l.rename f) (r.rename f)
  | or l r => or (l.rename f) (r.rename f)
  | not c => not (c.rename f)

/-- A statement with other names. -/
def Stmt.rename (f : String → String) : Stmt → Stmt
  | assign x v => assign (f x) (v.rename f)
  | seq s t => seq (s.rename f) (t.rename f)
  | when c s => when (c.rename f) (s.rename f)
  | branch c s t => branch (c.rename f) (s.rename f) (t.rename f)
  | loop c s => loop (c.rename f) (s.rename f)

/-- An environment with other names. -/
def Env.rename (f : String → String) (e : Env) : Env :=
  .ofList (e.toList.map fun p => (f p.1, p.2))

@[simp] theorem Expr.names_rename (f : String → String) (a : Expr) : (a.rename f).names = a.names.map f := by
  induction a <;> simp_all [rename, names]

@[simp] theorem Cond.names_rename (f : String → String) (c : Cond) : (c.rename f).names = c.names.map f := by
  induction c <;> simp_all [rename, names]

@[simp] theorem Stmt.names_rename (f : String → String) (s : Stmt) : (s.rename f).names = s.names.map f := by
  induction s <;> simp_all [rename, names]

@[simp] theorem Expr.rename_id (a : Expr) : a.rename id = a := by
  induction a <;> simp_all [rename]

@[simp] theorem Cond.rename_id (c : Cond) : c.rename id = c := by
  induction c <;> simp_all [rename]

@[simp] theorem Stmt.rename_id (s : Stmt) : s.rename id = s := by
  induction s <;> simp_all [rename]

end Imp
