import Imp.Fault

/-! # Integers

The values of Imp are the 64-bit integers. An operator answers with the exact result or not at all:
the checks below work on words and find out from the wrapped result whether the exact one was lost.
Division rounds toward negative infinity. -/

namespace Imp

/-! ### Operators -/

namespace Operator

/-- The sum. It was lost if the wrapped sum lies on the wrong side of `a`. -/
def checkedAdd (a b : Int64) : Option Int64 :=
  if decide (a + b < a) = decide (b < 0) then some (a + b) else none

/-- The difference. It was lost if the wrapped difference lies on the wrong side of `a`. -/
def checkedSub (a b : Int64) : Option Int64 :=
  if decide (a < a - b) = decide (b < 0) then some (a - b) else none

/-- The product. It was lost if dividing the wrapped product by `b` does not give `a` back. The one
    quotient that itself wraps is kept out. -/
def checkedMul (a b : Int64) : Option Int64 :=
  if b = 0 then some 0
  else if a = Int64.minValue ∧ b = -1 then none
  else if a * b / b = a then some (a * b) else none

/-- The quotient, rounded toward negative infinity: the quotient that rounds toward zero, and one
    less if there is a remainder and the signs differ. -/
def floorDiv (a b : Int64) : Int64 :=
  if a % b ≠ 0 ∧ decide (a < 0) ≠ decide (b < 0) then a / b - 1 else a / b

/-- The result of an operator on two values. -/
def apply (op : Operator) (a b : Int64) : Except Fault Int64 :=
  match op with
  | add => orOverflow (checkedAdd a b)
  | sub => orOverflow (checkedSub a b)
  | mul => orOverflow (checkedMul a b)
  | div =>
    if b = 0 then .error .divisionByZero
    else if a = Int64.minValue ∧ b = -1 then .error (.overflow div)
    else .ok (floorDiv a b)
where
  /-- A lost result is an overflow of the operator. -/
  orOverflow : Option Int64 → Except Fault Int64
    | some n => .ok n
    | none => .error (.overflow op)

end Operator

/-- Whether a comparison holds between two values. -/
def Comparison.holds : Comparison → Int64 → Int64 → Bool
  | lt, a, b => a < b
  | le, a, b => a ≤ b
  | gt, a, b => b < a
  | ge, a, b => b ≤ a
  | eq, a, b => a = b
  | ne, a, b => a ≠ b

/-- The truth value of two joined truth values, both of which are known. -/
def Connective.apply : Connective → Bool → Bool → Bool
  | and, p, q => p && q
  | or, p, q => p || q

end Imp
