import Imp.Parser.Basic

/-! # Operators that bind more or less tightly

An expression is written as operands with operators between them. The operators come in levels, the
tightest first. Each level is a chain whose operands are the chains of the level before, so operators
of one level group to the left. -/

namespace Imp.Parser

variable {ν : Type} {ty : ν → Type} {ω α : Type}

/-- One of the operators of a list. They are tried in their order. -/
def anyOperator (symbol : ω → String) (ops : List ω) : Parser ty ω :=
  ops.foldr (fun op rest => alt (map (fun _ => op) (token (symbol op) .reserved)) rest) fail

/-- Operands joined by operators, where `join` makes one value of an operator and its operands. -/
def precedence (symbol : ω → String) (join : ω → α → α → α) (levels : List (List ω)) (operand : Parser ty α) :
    Parser ty α :=
  levels.foldl (fun p ops => chainLeft p (map join (anyOperator symbol ops))) operand

end Imp.Parser
