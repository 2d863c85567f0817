import Imp.Numeral
import Imp.Parser.Precedence
import Imp.Parser.Run
import Imp.Syntax

/-! # The grammar

The productions of the language as a family of parsers. Products and quotients bind tighter than sums
and differences, `and` binds tighter than `or`, and `not` takes the shortest condition behind it. All
of these, and the statements of a list, group to the left. A numeral that does not fit into 64 bits is
no expression. -/

namespace Imp

/-- The productions that occur within themselves. -/
inductive Production where
  | expr
  | cond
  /-- A condition without a connective around it. -/
  | condTerm
  | block
deriving DecidableEq, Repr

namespace Production

/-- What a production makes of its tokens. -/
def Value : Production → Type
  | expr => Expr
  | cond | condTerm => Cond
  | block => Stmt

def all : List Production := [expr, cond, condTerm, block]

end Production

namespace Grammar

open Imp.Parser

/-- Parsers that may call the productions. -/
abbrev Rule (α : Type) : Type 1 := Parser Production.Value α

/-- A reserved text. -/
def keyword (text : String) : Rule String := .token text .reserved

/-- A parser between parentheses. -/
def group {α : Type} (p : Rule α) : Rule α :=
  map (fun r => r.1.2) (seq (seq (keyword "(") p) (keyword ")"))

/-! ### The productions by name -/

def anyExpr : Rule Expr := call Production.expr

def anyCond : Rule Cond := call Production.cond

def anyCondTerm : Rule Cond := call Production.condTerm

def anyBlock : Rule Stmt := call Production.block

/-! ### Expressions -/

def numeral : Rule Int64 := filterMap Numeral.readInt64? (ofKind .numeral)

def exprTerm : Rule Expr :=
  alt (alt (map Expr.const numeral) (map Expr.var (ofKind .name))) (group anyExpr)

/-- The arithmetic operators by level, the tightest first. -/
def operatorLevels : List (List Operator) := [[.mul, .div], [.add, .sub]]

def expr : Rule Expr := precedence Operator.symbol Expr.binary operatorLevels exprTerm

/-! ### Conditions -/

def negation : Rule Cond :=
  map (fun r => Cond.not r.2) (seq (keyword "not") anyCondTerm)

def comparison : Rule Cond :=
  map (fun r => Cond.compare r.1.2 r.1.1 r.2) (seq (seq expr (anyOperator Comparison.symbol Comparison.all)) expr)

def condTerm : Rule Cond := alt (alt negation comparison) (group anyCond)

/-- The connectives by level, the tightest first. -/
def connectiveLevels : List (List Connective) := [[.and], [.or]]

def cond : Rule Cond := precedence Connective.symbol Cond.join connectiveLevels condTerm

/-! ### Statements -/

def assignment : Rule Stmt :=
  map (fun r => Stmt.assign r.1.1 r.2) (seq (seq (ofKind .name) (keyword ":=")) expr)

/-- A statement by a condition, with or without an alternative. -/
def choice : Rule Stmt :=
  map (fun r => r.1.2.elim (Stmt.when r.1.1.1.1.2 r.1.1.2) fun s => Stmt.branch r.1.1.1.1.2 r.1.1.2 s.2)
    (seq
      (seq (seq (seq (seq (keyword "if") cond) (keyword "then")) anyBlock)
        (opt (seq (keyword "else") anyBlock)))
      (keyword "end"))

def loop : Rule Stmt :=
  map (fun r => Stmt.loop r.1.1.1.2 r.1.2)
    (seq (seq (seq (seq (keyword "while") cond) (keyword "do")) anyBlock) (keyword "end"))

def statement : Rule Stmt := alt (alt assignment choice) loop

/-- One or more statements, separated by semicolons. -/
def block : Rule Stmt := chainLeft statement (map (fun _ => Stmt.seq) (keyword ";"))

/-- A list of statements that takes all tokens. -/
def program : Rule Stmt := phrase block

/-- The parser of each production. -/
def productions : Family Production.Value
  | .expr => expr
  | .cond => cond
  | .condTerm => condTerm
  | .block => block

/-- Runs a parser of the grammar. A production is called within itself only behind a token and a loop
    takes a token each time round, so the tokens that are left bound both. -/
def run {α : Type} (p : Rule α) (ts : Array Token) (pos : Nat) : Answer α :=
  p.run productions ts (ts.size - pos + 2) pos

end Grammar

end Imp
