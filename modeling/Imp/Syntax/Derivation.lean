import Imp.Numeral
import Imp.Syntax
import Imp.Token

/-! # What tokens derive

Which tokens write which tree, as rules and apart from any parser. The rules for expressions, and
those for conditions, come in layers: what stands in a tighter layer also stands in a looser one, and
the right operand of an operator stands in a tighter layer than the operator itself, so operators of
one layer group to the left. Tokens count by text and kind alone. -/

namespace Imp

/-- The token is the reserved text. -/
def Token.Is (t : Token) (text : String) : Prop := t.text = text ∧ t.kind = .reserved

instance (t : Token) (text : String) : Decidable (t.Is text) := inferInstanceAs (Decidable (_ ∧ _))

/-- The layers of expressions, the tightest first. -/
inductive Expr.Layer where
  | term | product | sum
deriving DecidableEq, Repr

/-- The tokens write the expression. -/
inductive Expr.Derives : Expr.Layer → List Token → Expr → Prop where
  | const {t : Token} {n : Int64} : t.kind = .numeral → Numeral.readInt64? t.text = some n →
      Derives .term [t] (.const n)
  | var {t : Token} : t.kind = .name → Derives .term [t] (.var t.text)
  | group {l r : Token} {ts : List Token} {e : Expr} : l.Is "(" → Derives .sum ts e → r.Is ")" →
      Derives .term (l :: ts ++ [r]) e
  | term {ts : List Token} {e : Expr} : Derives .term ts e → Derives .product ts e
  | product {ts us : List Token} {t : Token} {op : Operator} {a b : Expr} : op = .mul ∨ op = .div →
      Derives .product ts a → t.Is op.symbol → Derives .term us b →
      Derives .product (ts ++ t :: us) (.binary op a b)
  | single {ts : List Token} {e : Expr} : Derives .product ts e → Derives .sum ts e
  | sum {ts us : List Token} {t : Token} {op : Operator} {a b : Expr} : op = .add ∨ op = .sub →
      Derives .sum ts a → t.Is op.symbol → Derives .product us b →
      Derives .sum (ts ++ t :: us) (.binary op a b)

/-- The layers of conditions, the tightest first. -/
inductive Cond.Layer where
  | term | conjunction | disjunction
deriving DecidableEq, Repr

/-- The tokens write the condition. -/
inductive Cond.Derives : Cond.Layer → List Token → Cond → Prop where
  | not {t : Token} {ts : List Token} {c : Cond} : t.Is "not" → Derives .term ts c →
      Derives .term (t :: ts) (.not c)
  | compare {ts us : List Token} {t : Token} {op : Comparison} {a b : Expr} :
      Expr.Derives .sum ts a → t.Is op.symbol → Expr.Derives .sum us b →
      Derives .term (ts ++ t :: us) (.compare op a b)
  | group {l r : Token} {ts : List Token} {c : Cond} : l.Is "(" → Derives .disjunction ts c → r.Is ")" →
      Derives .term (l :: ts ++ [r]) c
  | term {ts : List Token} {c : Cond} : Derives .term ts c → Derives .conjunction ts c
  | and {ts us : List Token} {t : Token} {a b : Cond} : Derives .conjunction ts a → t.Is "and" →
      Derives .term us b → Derives .conjunction (ts ++ t :: us) (.and a b)
  | single {ts : List Token} {c : Cond} : Derives .conjunction ts c → Derives .disjunction ts c
  | or {ts us : List Token} {t : Token} {a b : Cond} : Derives .disjunction ts a → t.Is "or" →
      Derives .conjunction us b → Derives .disjunction (ts ++ t :: us) (.or a b)

/-- A statement by itself, or statements with semicolons between them. -/
inductive Stmt.Layer where
  | single | block
deriving DecidableEq, Repr

/-- The tokens write the statement. -/
inductive Stmt.Derives : Stmt.Layer → List Token → Stmt → Prop where
  | assign {x t : Token} {ts : List Token} {e : Expr} : x.kind = .name → t.Is ":=" → Expr.Derives .sum ts e →
      Derives .single (x :: t :: ts) (.assign x.text e)
  | when {i t f : Token} {cs ss : List Token} {c : Cond} {s : Stmt} :
      i.Is "if" → Cond.Derives .disjunction cs c → t.Is "then" → Derives .block ss s → f.Is "end" →
      Derives .single (i :: cs ++ t :: ss ++ [f]) (.when c s)
  | branch {i t l f : Token} {cs ss us : List Token} {c : Cond} {s u : Stmt} :
      i.Is "if" → Cond.Derives .disjunction cs c → t.Is "then" → Derives .block ss s → l.Is "else" →
      Derives .block us u → f.Is "end" →
      Derives .single (i :: cs ++ t :: ss ++ l :: us ++ [f]) (.branch c s u)
  | loop {w d f : Token} {cs ss : List Token} {c : Cond} {s : Stmt} :
      w.Is "while" → Cond.Derives .disjunction cs c → d.Is "do" → Derives .block ss s → f.Is "end" →
      Derives .single (w :: cs ++ d :: ss ++ [f]) (.loop c s)
  | single {ts : List Token} {s : Stmt} : Derives .single ts s → Derives .block ts s
  | seq {ts us : List Token} {t : Token} {a b : Stmt} : Derives .block ts a → t.Is ";" → Derives .single us b →
      Derives .block (ts ++ t :: us) (.seq a b)

/-! ### No tree is written without tokens -/

theorem Expr.Derives.ne_nil {l : Expr.Layer} {ts : List Token} {e : Expr} (h : Expr.Derives l ts e) : ts ≠ [] := by
  induction h <;> simp_all

theorem Cond.Derives.ne_nil {l : Cond.Layer} {ts : List Token} {c : Cond} (h : Cond.Derives l ts c) : ts ≠ [] := by
  induction h <;> simp_all

theorem Stmt.Derives.ne_nil {l : Stmt.Layer} {ts : List Token} {s : Stmt} (h : Stmt.Derives l ts s) : ts ≠ [] := by
  induction h <;> simp_all

end Imp
