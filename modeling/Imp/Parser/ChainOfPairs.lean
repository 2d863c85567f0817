import Imp.Parser.Basic

/-! # Chains as repetitions

What a chain takes can be taken without a chain: an operand, and then pairs of a separator and an operand for as
long as there are any. The pairs are kept until the last one has been taken, and joined from the left then. -/

namespace Imp.Parser

variable {ν : Type} {ty : ν → Type} {α : Type}

/-- Joins operands to the first one from the left, each with the function that stands before it. -/
def joinPairs (left : α) (pairs : List ((α → α → α) × α)) : α := pairs.foldl (fun v pair => pair.1 v pair.2) left

/-- An operand and a repetition of pairs, in place of a chain. -/
def chainOfPairs (p : Parser ty α) (s : Parser ty (α → α → α)) : Parser ty α :=
  map (fun r => joinPairs r.1 r.2) (seq p (rep (seq s p)))

/-- These pairs of a separator and an operand stand between the two positions, one behind the other. -/
inductive PairsAt (operand : Nat → Answer α) (separator : Nat → Answer (α → α → α)) :
    Nat → List ((α → α → α) × α) → Nat → Prop where
  | nil {pos : Nat} : PairsAt operand separator pos [] pos
  | cons {pos mid next q : Nat} {join : α → α → α} {right : α} {pairs : List ((α → α → α) × α)} :
      separator pos = .success join mid → operand mid = .success right next → PairsAt operand separator next pairs q →
      PairsAt operand separator pos ((join, right) :: pairs) q

/-- No further pair stands at the position: there is no separator, or no operand behind it. -/
def NoPairAt (operand : Nat → Answer α) (separator : Nat → Answer (α → α → α)) (pos : Nat) : Prop :=
  separator pos = .failure ∨ ∃ join mid, separator pos = .success join mid ∧ operand mid = .failure

end Imp.Parser
