import Imp.Parser.Basic

/-! # Operands and operators in a row

What a text with operators of several levels means, apart from any way to parse it: a row of operands
with operators between them, and the one tree over this row in which every operator binds as tightly
as its level says. The level of an operator is the first that lists it. -/

namespace Imp

/-- A tree of operators over operands. -/
inductive OperatorTree (ω α : Type) where
  | operand (v : α)
  | node (op : ω) (left right : OperatorTree ω α)
deriving DecidableEq, Repr

/-- The index of the first level that lists an operator with this symbol. -/
def levelOf {ω : Type} (symbol : ω → String) (levels : List (List ω)) (op : ω) : Nat :=
  levels.findIdx fun ops => ops.any fun o => symbol o = symbol op

namespace OperatorTree

variable {ω α : Type}

/-- The value of a tree. -/
def value (join : ω → α → α → α) : OperatorTree ω α → α
  | operand v => v
  | node op l r => join op (l.value join) (r.value join)

/-- The first operand of a tree. -/
def head : OperatorTree ω α → α
  | operand v => v
  | node _ l _ => l.head

/-- The operators of a tree with the operands to their right, from left to right. -/
def row : OperatorTree ω α → List (ω × α)
  | operand _ => []
  | node op l r => l.row ++ (op, r.head) :: r.row

/-- The operator at the root of a tree is of a level that the test accepts. An operand always is. -/
def RootIs (test : ω → Prop) : OperatorTree ω α → Prop
  | operand _ => True
  | node op _ _ => test op

instance (test : ω → Prop) [DecidablePred test] : (t : OperatorTree ω α) → Decidable (t.RootIs test)
  | operand _ => inferInstanceAs (Decidable True)
  | node op _ _ => inferInstanceAs (Decidable (test op))

/-- The operator at the root of a left operand is of the same or a tighter level, and at the root of a
    right operand it is of a tighter level. -/
def Binds (level : ω → Nat) : OperatorTree ω α → Prop
  | operand _ => True
  | node op l r =>
    l.RootIs (fun o => level o ≤ level op) ∧ r.RootIs (fun o => level o < level op) ∧
      l.Binds level ∧ r.Binds level

instance decidableBinds (level : ω → Nat) : (t : OperatorTree ω α) → Decidable (t.Binds level)
  | operand _ => inferInstanceAs (Decidable True)
  | node op l r =>
    have := decidableBinds level l
    have := decidableBinds level r
    inferInstanceAs (Decidable (l.RootIs (fun o => level o ≤ level op) ∧ r.RootIs (fun o => level o < level op) ∧
      l.Binds level ∧ r.Binds level))

/-- The tree stands over an operand and the row behind it, in their order, and its operators bind as
    their levels say. -/
structure IsOver (level : ω → Nat) (first : α) (row : List (ω × α)) (t : OperatorTree ω α) : Prop where
  head : t.head = first
  row : t.row = row
  binds : t.Binds level

end OperatorTree

/-- Operators of the list that are written alike are the same. -/
def DistinctSymbols {ω : Type} (symbol : ω → String) (ops : List ω) : Prop :=
  ∀ a ∈ ops, ∀ b ∈ ops, symbol a = symbol b → a = b

instance {ω : Type} [DecidableEq ω] (symbol : ω → String) (ops : List ω) : Decidable (DistinctSymbols symbol ops) :=
  inferInstanceAs (Decidable (∀ a ∈ ops, ∀ b ∈ ops, symbol a = symbol b → a = b))

/-- An operator stands at a position. -/
def OperatorAt {ω : Type} (ts : Array Token) (symbol : ω → String) (ops : List ω) (pos : Nat) (op : ω) : Prop :=
  op ∈ ops ∧ ∃ t, ts[pos]? = some t ∧ t.text = symbol op ∧ t.kind = .reserved

/-- Operators and operands follow one another from a position up to `stop`, and there no operator
    follows that an operand stands behind. -/
inductive RowAt {ω α : Type} (ts : Array Token) (symbol : ω → String) (ops : List ω) (operand : Nat → Answer α) :
    Nat → List (ω × α) → Nat → Prop where
  | stop {pos : Nat} : (∀ op, OperatorAt ts symbol ops pos op → operand (pos + 1) = .failure) →
      RowAt ts symbol ops operand pos [] pos
  | more {pos next stop : Nat} {op : ω} {v : α} {rest : List (ω × α)} :
      OperatorAt ts symbol ops pos op → operand (pos + 1) = .success v next →
      RowAt ts symbol ops operand next rest stop → RowAt ts symbol ops operand pos ((op, v) :: rest) stop

end Imp
