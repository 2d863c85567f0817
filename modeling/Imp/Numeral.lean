/-! # Numerals

Integers as decimal text. An integer is one or more digits, with or without a sign, leading zeros
allowed; it has to fit into 64 bits. -/

namespace Imp

namespace Numeral

/-- The number that a run of decimal digits denotes. -/
def value (ds : List Char) : Nat :=
  ds.foldl (fun n d => 10 * n + (d.toNat - '0'.toNat)) 0

/-- Reads one or more decimal digits. -/
def digits? (cs : List Char) : Option Nat :=
  if cs.isEmpty || !cs.all Char.isDigit then none else some (value cs)

/-- An integer as a word, if it fits. -/
def int64? (n : Int) : Option Int64 :=
  if Int64.minValue.toInt ≤ n ∧ n ≤ Int64.maxValue.toInt then some (Int64.ofInt n) else none

/-- Reads a 64-bit integer: an optional sign and then digits, leading zeros allowed. -/
def readInt64? (text : String) : Option Int64 :=
  match text.toList with
  | '-' :: cs => digits? cs >>= fun n => int64? (-n)
  | '+' :: cs => digits? cs >>= fun n => int64? n
  | cs => digits? cs >>= fun n => int64? n

/-- Reads an unsigned 64-bit integer: an optional plus sign and then digits. -/
def readUInt64? (text : String) : Option UInt64 :=
  let cs := match text.toList with
    | '+' :: cs => cs
    | cs => cs
  digits? cs >>= fun n => if n < UInt64.size then some (UInt64.ofNat n) else none

end Numeral

end Imp
