import Imp.Numeral
import Imp.Token.Layout

/-! # Numerals written and read

A constant that is not negative is written as a run of digits, and reading these gives it back. Whatever
a run of digits denotes is not negative. A negative constant is written as a minus sign and the digits
of its amount, and is read back as well where signs are read. -/

namespace Imp.Numeral

/-! ### Digits -/

theorem value_toDigits (n : Nat) : value (Nat.toDigits 10 n) = n := by
  have h : value (Nat.toDigits 10 n) = Nat.ofDigitChars 10 (Nat.toDigits 10 n) 0 := Nat.ofDigitChars_eq_foldl.symm
  rw [h, Nat.ofDigitChars_ten_toDigits]

theorem spells_repr (n : Nat) : Kind.numeral.Spells n.repr := by
  refine ⟨fun h => ?_, fun c hc => ?_⟩
  · have hnil : n.repr.toList = [] := by rw [h]; rfl
    exact Nat.toDigits_ne_nil (Nat.toList_repr ▸ hnil)
  · rw [Nat.toList_repr] at hc
    exact Nat.isDigit_of_mem_toDigits (by decide) (by decide) hc

theorem digits?_of_spells {x : String} (hx : Kind.numeral.Spells x) : digits? x.toList = some (value x.toList) := by
  obtain ⟨hne, hd⟩ := hx
  have hall : x.toList.all Char.isDigit = true := List.all_eq_true.mpr hd
  have hemp : x.toList.isEmpty = false := List.isEmpty_eq_false_iff.mpr (mt String.toList_eq_nil_iff.mp hne)
  rw [digits?, hall, hemp]
  rfl

theorem digits?_repr (n : Nat) : digits? n.repr.toList = some n := by
  rw [digits?_of_spells (spells_repr n), Nat.toList_repr, value_toDigits]

/-- A number begins with none but a digit. -/
theorem repr_ne_cons {c : Char} (hc : c.isDigit = false) (n : Nat) (s : List Char) : n.repr.toList ≠ c :: s := by
  intro h
  have hdigit := (spells_repr n).2 c (by rw [h]; exact List.mem_cons_self)
  rw [hc] at hdigit
  cases hdigit

/-- A run of digits has no sign, and is read as what it denotes. -/
theorem readInt64?_of_spells {x : String} (hx : Kind.numeral.Spells x) : readInt64? x = int64? (value x.toList) := by
  rw [readInt64?]
  split
  · next heq => exact absurd (hx.2 '-' (by simp [heq])) (by decide)
  · next heq => exact absurd (hx.2 '+' (by simp [heq])) (by decide)
  · rw [digits?_of_spells hx]
    rfl

theorem readUInt64?_repr (n : UInt64) : readUInt64? n.toNat.repr = some n := by
  unfold readUInt64?
  split
  · next heq => exact absurd heq (repr_ne_cons rfl _ _)
  · dsimp only
    rw [digits?_repr]
    exact (if_pos n.toNat_lt).trans (congrArg some UInt64.ofNat_toNat)

/-! ### Constants -/

theorem int64?_toInt (n : Int64) : int64? n.toInt = some n := by
  rw [int64?, if_pos ⟨n.minValue_le_toInt, n.toInt_le⟩, Int64.ofInt_toInt]

theorem nonneg_of_int64? {m : Nat} {n : Int64} (h : int64? (m : Int) = some n) : 0 ≤ n := by
  rw [int64?] at h
  split at h
  · next hfits =>
    cases h
    rw [Int64.le_iff_toInt_le, Int64.toInt_zero, Int64.toInt_ofInt_of_le hfits.1 (Int.lt_of_le_sub_one hfits.2)]
    exact Int.natCast_nonneg m
  · cases h

/-- A numeral never denotes a negative constant. -/
theorem nonneg_of_readInt64? {x : String} {n : Int64} (hx : Kind.numeral.Spells x) (h : readInt64? x = some n) : 0 ≤ n := by
  rw [readInt64?_of_spells hx] at h
  exact nonneg_of_int64? h

theorem toString_of_nonneg {n : Int64} (h : 0 ≤ n) : toString n.toInt = n.toInt.natAbs.repr := by
  rw [Int64.le_iff_toInt_le, Int64.toInt_zero] at h
  obtain ⟨m, hm⟩ := Int.eq_ofNat_of_zero_le h
  rw [hm]
  rfl

theorem toString_of_neg {n : Int64} (h : n < 0) : toString n.toInt = "-" ++ n.toInt.natAbs.repr := by
  rw [Int64.lt_iff_toInt_lt, Int64.toInt_zero] at h
  obtain ⟨m, hm⟩ := Int.eq_negSucc_of_lt_zero h
  rw [hm]
  rfl

/-- The digits of a constant that is not negative are read as that constant. -/
theorem readInt64?_repr {n : Int64} (h : 0 ≤ n) : readInt64? n.toInt.natAbs.repr = some n := by
  rw [readInt64?_of_spells (spells_repr _), Nat.toList_repr, value_toDigits]
  rw [Int64.le_iff_toInt_le, Int64.toInt_zero] at h
  rw [Int.natAbs_of_nonneg h, int64?_toInt]

/-- Every constant is read back from its text. -/
theorem readInt64?_toString (n : Int64) : readInt64? (toString n.toInt) = some n := by
  by_cases hn : 0 ≤ n
  · rw [toString_of_nonneg hn, readInt64?_repr hn]
  · have hneg : n < 0 := Int64.not_le.mp hn
    have hamount : -(n.toInt.natAbs : Int) = n.toInt := by
      rw [Int64.lt_iff_toInt_lt, Int64.toInt_zero] at hneg
      omega
    rw [toString_of_neg hneg, readInt64?, String.toList_append]
    change (digits? n.toInt.natAbs.repr.toList >>= fun m => int64? (-(m : Int))) = some n
    rw [digits?_repr, Option.bind_eq_bind, Option.bind_some, hamount, int64?_toInt]

end Imp.Numeral
