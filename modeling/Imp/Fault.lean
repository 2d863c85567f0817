import Imp.Syntax

/-! # Faults

What can go wrong while a program runs. -/

namespace Imp

/-- Why a run stopped before its end. -/
inductive Fault where
  | divisionByZero
  /-- The exact result of an operator does not fit into 64 bits. -/
  | overflow (op : Operator)
  /-- A loop was about to begin one more iteration than it may. -/
  | tooManyIterations (limit : UInt64)
deriving DecidableEq, Repr

/-- The text of a fault. -/
def Fault.message : Fault → String
  | divisionByZero => "Division by zero"
  | overflow op => "Arithmetic overflow in '" ++ op.symbol ++ "'"
  | tooManyIterations limit => "Too many iterations (limit: " ++ toString limit.toNat ++ ")"

end Imp
