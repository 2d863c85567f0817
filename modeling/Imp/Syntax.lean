/-! # The language

Imp has integer variables, arithmetic, conditions that compare arithmetic values, and statements:
assignment, sequence, choice with or without an alternative, and loop. The trees may hold what no
source text writes: negative constants, names that are no identifiers, and sequences that nest to the
right. -/

namespace Imp

/-- The arithmetic operators. -/
inductive Operator where
  | add | sub | mul | div
deriving DecidableEq, Repr, Inhabited

/-- The comparisons. -/
inductive Comparison where
  | lt | le | gt | ge | eq | ne
deriving DecidableEq, Repr, Inhabited

/-- The words that join two conditions. -/
inductive Connective where
  | and | or
deriving DecidableEq, Repr, Inhabited

namespace Operator

/-- How an operator is written. -/
def symbol : Operator → String
  | add => "+"
  | sub => "-"
  | mul => "*"
  | div => "/"

def all : List Operator := [add, sub, mul, div]

def ofSymbol? (s : String) : Option Operator := all.find? (·.symbol = s)

end Operator

namespace Comparison

/-- How a comparison is written. -/
def symbol : Comparison → String
  | lt => "<"
  | le => "<="
  | gt => ">"
  | ge => ">="
  | eq => "="
  | ne => "!="

def all : List Comparison := [lt, le, gt, ge, eq, ne]

def ofSymbol? (s : String) : Option Comparison := all.find? (·.symbol = s)

end Comparison

namespace Connective

/-- How a connective is written. -/
def symbol : Connective → String
  | and => "and"
  | or => "or"

def all : List Connective := [and, or]

def ofSymbol? (s : String) : Option Connective := all.find? (·.symbol = s)

end Connective

/-- Arithmetic expressions. -/
inductive Expr where
  | const (n : Int64)
  | var (name : String)
  | binary (op : Operator) (left right : Expr)
deriving DecidableEq, Repr, Inhabited

/-- Conditions. -/
inductive Cond where
  | compare (op : Comparison) (left right : Expr)
  | and (left right : Cond)
  | or (left right : Cond)
  | not (c : Cond)
deriving DecidableEq, Repr

instance : Inhabited Cond := ⟨.compare .eq default default⟩

/-- Two conditions joined by a connective. -/
def Cond.join : Connective → Cond → Cond → Cond
  | .and => .and
  | .or => .or

/-- Statements. -/
inductive Stmt where
  /-- Stores the value of an expression in a variable. -/
  | assign (name : String) (value : Expr)
  /-- Runs the first statement, then the second. -/
  | seq (first second : Stmt)
  /-- Runs a statement if a condition holds. -/
  | when (c : Cond) (body : Stmt)
  /-- Runs the one statement or the other, by a condition. -/
  | branch (c : Cond) (yes no : Stmt)
  /-- Runs a statement again and again while a condition holds. -/
  | loop (c : Cond) (body : Stmt)
deriving DecidableEq, Repr, Inhabited

end Imp
