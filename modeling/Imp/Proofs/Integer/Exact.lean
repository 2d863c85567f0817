import Imp.Integer
import Imp.Semantics.Exact

/-! # Operators are exact

A wrapped result differs from the exact one by a multiple of 2^64, and two integers that fit into 64 bits and differ
so are equal. So each check on words finds out whether the exact result fits. The quotient that rounds toward zero
wraps in one case only, and where the remainder asks for one less, one less fits. -/

namespace Imp

variable {a b n : Int64} {m : Int}

/-! ### Integers that fit -/

theorem fitsWord_iff : FitsWord m ↔ -9223372036854775808 ≤ m ∧ m ≤ 9223372036854775807 := by
  have hmin : Int64.minValue.toInt = -9223372036854775808 := by decide
  have hmax : Int64.maxValue.toInt = 9223372036854775807 := by decide
  rw [FitsWord, hmin, hmax]

theorem fitsWord_toInt (a : Int64) : FitsWord a.toInt := ⟨a.minValue_le_toInt, a.toInt_le⟩

theorem toInt_bounds (a : Int64) : -9223372036854775808 ≤ a.toInt ∧ a.toInt ≤ 9223372036854775807 :=
  fitsWord_iff.mp (fitsWord_toInt a)

theorem exists_toInt_eq (h : FitsWord m) : ∃ n : Int64, n.toInt = m := by
  obtain ⟨hmin, hmax⟩ := fitsWord_iff.mp h
  exact ⟨Int64.ofInt m, Int64.toInt_ofInt_of_le (by omega) (by omega)⟩

theorem toInt_eq_zero_iff : a.toInt = 0 ↔ a = 0 := by
  rw [← Int64.toInt_inj, Int64.toInt_zero]

theorem toInt_eq_neg_one_iff : a.toInt = -1 ↔ a = -1 := by
  rw [← Int64.toInt_inj]
  exact Iff.rfl

theorem toInt_eq_minValue_iff : a.toInt = -9223372036854775808 ↔ a = Int64.minValue := by
  rw [← Int64.toInt_inj]
  exact Iff.rfl

/-! ### Wrapped results -/

theorem exists_wrap_add (a b : Int64) : ∃ k, (a + b).toInt = a.toInt + b.toInt + 18446744073709551616 * k := by
  obtain ⟨k, hk⟩ := @Int.dvd_bmod_sub_self (a.toInt + b.toInt) (2 ^ 64)
  have hadd := Int64.toInt_add a b
  exact ⟨k, by omega⟩

theorem exists_wrap_sub (a b : Int64) : ∃ k, (a - b).toInt = a.toInt - b.toInt + 18446744073709551616 * k := by
  obtain ⟨k, hk⟩ := @Int.dvd_bmod_sub_self (a.toInt - b.toInt) (2 ^ 64)
  have hsub := Int64.toInt_sub a b
  exact ⟨k, by omega⟩

theorem exists_wrap_mul (a b : Int64) : ∃ k, (a * b).toInt = a.toInt * b.toInt + 18446744073709551616 * k := by
  obtain ⟨k, hk⟩ := @Int.dvd_bmod_sub_self (a.toInt * b.toInt) (2 ^ 64)
  have hmul := Int64.toInt_mul a b
  exact ⟨k, by omega⟩

theorem natAbs_tmod_lt {p q : Int} (hq : q ≠ 0) : (p.tmod q).natAbs < q.natAbs := by
  rw [Int.natAbs_tmod]
  exact Nat.mod_lt _ (Int.natAbs_pos.mpr hq)

/-- The truncated quotient is exact, but for the one that wraps. -/
theorem toInt_div (h : ¬ (a = Int64.minValue ∧ b = -1)) : (a / b).toInt = a.toInt.tdiv b.toInt := by
  by_cases ha : a = Int64.minValue
  · exact Int64.toInt_div_of_ne_right a b fun hb => h ⟨ha, hb⟩
  · exact Int64.toInt_div_of_ne_left a b ha

namespace Operator

/-! ### The checks on words -/

/-- A check that finds out whether the wrapped result is the exact one answers with the exact result. -/
theorem ite_eq_some_iff {w : Int64} {c : Prop} [Decidable c] (hw : ∃ k, w.toInt = m + 18446744073709551616 * k)
    (hc : c ↔ w.toInt = m) : (if c then some w else none) = some n ↔ n.toInt = m := by
  by_cases hexact : w.toInt = m
  · rw [if_pos (hc.mpr hexact), Option.some.injEq, ← Int64.toInt_inj, hexact, eq_comm]
  · rw [if_neg (mt hc.mp hexact)]
    obtain ⟨k, hk⟩ := hw
    have hn := toInt_bounds n
    have hw := toInt_bounds w
    simp only [reduceCtorEq, false_iff]
    omega

theorem checkedAdd_eq_some_iff : checkedAdd a b = some n ↔ n.toInt = a.toInt + b.toInt := by
  refine ite_eq_some_iff (exists_wrap_add a b) ?_
  obtain ⟨k, hk⟩ := exists_wrap_add a b
  have ha := toInt_bounds a
  have hb := toInt_bounds b
  have hw := toInt_bounds (a + b)
  rw [decide_eq_decide, Int64.lt_iff_toInt_lt, Int64.lt_iff_toInt_lt, Int64.toInt_zero]
  omega

theorem checkedSub_eq_some_iff : checkedSub a b = some n ↔ n.toInt = a.toInt - b.toInt := by
  refine ite_eq_some_iff (exists_wrap_sub a b) ?_
  obtain ⟨k, hk⟩ := exists_wrap_sub a b
  have ha := toInt_bounds a
  have hb := toInt_bounds b
  have hw := toInt_bounds (a - b)
  rw [decide_eq_decide, Int64.lt_iff_toInt_lt, Int64.lt_iff_toInt_lt, Int64.toInt_zero]
  omega

/-- Dividing the wrapped product gives the first factor back where nothing was lost. -/
theorem mul_div_eq_iff (hb : b ≠ 0) (h : ¬ (a = Int64.minValue ∧ b = -1)) :
    a * b / b = a ↔ (a * b).toInt = a.toInt * b.toInt := by
  obtain ⟨k, hk⟩ := exists_wrap_mul a b
  have hb0 : b.toInt ≠ 0 := mt toInt_eq_zero_iff.mp hb
  have hquot : (a * b / b).toInt = (a * b).toInt.tdiv b.toInt := by
    refine toInt_div fun ⟨hw, hb1⟩ => h ⟨toInt_eq_minValue_iff.mp ?_, hb1⟩
    -- The smallest integer is a product with -1 only of itself.
    rw [toInt_eq_minValue_iff.mpr hw, toInt_eq_neg_one_iff.mpr hb1] at hk
    have ha := toInt_bounds a
    omega
  rw [← Int64.toInt_inj, hquot]
  constructor
  · intro hdiv
    -- What was lost is a remainder of the division, and so less than the divisor.
    have hrem : (a * b).toInt.tmod b.toInt = 18446744073709551616 * k := by
      have hdm := Int.mul_tdiv_add_tmod (a * b).toInt b.toInt
      rw [hdiv, Int.mul_comm] at hdm
      omega
    have hlt : (18446744073709551616 * k).natAbs < b.toInt.natAbs := by
      rw [← hrem]
      exact natAbs_tmod_lt hb0
    have hbw := toInt_bounds b
    omega
  · intro hexact
    rw [hexact, Int.mul_tdiv_cancel _ hb0]

theorem checkedMul_eq_some_iff : checkedMul a b = some n ↔ n.toInt = a.toInt * b.toInt := by
  rw [checkedMul]
  by_cases hb : b = 0
  · rw [if_pos hb, hb, Int64.toInt_zero, Int.mul_zero, Option.some.injEq, toInt_eq_zero_iff, eq_comm]
  · rw [if_neg hb]
    by_cases h : a = Int64.minValue ∧ b = -1
    · have hn := toInt_bounds n
      rw [if_pos h, toInt_eq_minValue_iff.mpr h.1, toInt_eq_neg_one_iff.mpr h.2]
      simp only [reduceCtorEq, false_iff]
      omega
    · rw [if_neg h]
      exact ite_eq_some_iff (exists_wrap_mul a b) (mul_div_eq_iff hb h)

/-! ### Division -/

/-- Where there is a remainder, the quotient is not the smallest integer. -/
theorem minValue_lt_toInt_div (hb : b ≠ 0) (hr : a % b ≠ 0) (h : ¬ (a = Int64.minValue ∧ b = -1)) :
    -9223372036854775808 < (a / b).toInt := by
  have hr0 : a.toInt.tmod b.toInt ≠ 0 := fun hr0 => hr (toInt_eq_zero_iff.mp (by rw [Int64.toInt_mod, hr0]))
  have hlt : (a.toInt.tmod b.toInt).natAbs < b.toInt.natAbs := natAbs_tmod_lt (mt toInt_eq_zero_iff.mp hb)
  have ha := toInt_bounds a
  refine Int.lt_iff_le_and_ne.mpr ⟨(toInt_bounds (a / b)).1, fun hmin => ?_⟩
  have hdm := Int.mul_tdiv_add_tmod a.toInt b.toInt
  rw [← toInt_div h, ← hmin] at hdm
  omega

theorem toInt_div_sub_one (hb : b ≠ 0) (hr : a % b ≠ 0) (h : ¬ (a = Int64.minValue ∧ b = -1)) :
    (a / b - 1).toInt = a.toInt.tdiv b.toInt - 1 := by
  have hmin := minValue_lt_toInt_div hb hr h
  obtain ⟨k, hk⟩ := exists_wrap_sub (a / b) 1
  have hone : (1 : Int64).toInt = 1 := by decide
  have hw := toInt_bounds (a / b - 1)
  have hq := toInt_bounds (a / b)
  rw [← toInt_div h]
  omega

/-- Where there is a remainder, rounding down and toward zero differ just when the signs do. -/
theorem fdiv_eq_of_not_dvd {p q : Int} (hq : q ≠ 0) (h : ¬ q ∣ p) :
    p.fdiv q = if p < 0 ↔ q < 0 then p.tdiv q else p.tdiv q - 1 := by
  have hp : p ≠ 0 := fun hp => h (hp ▸ Int.dvd_zero q)
  rw [Int.fdiv_eq_tdiv, if_neg h]
  rcases Int.lt_or_gt_of_ne hq with hneg | hpos
  · rw [Int.sign_eq_neg_one_of_neg hneg]
    omega
  · rw [Int.sign_eq_one_of_pos hpos]
    omega

theorem toInt_floorDiv (hb : b ≠ 0) (h : ¬ (a = Int64.minValue ∧ b = -1)) :
    (floorDiv a b).toInt = a.toInt.fdiv b.toInt := by
  have hdvd : b.toInt ∣ a.toInt ↔ a % b = 0 := by
    rw [Int.dvd_iff_tmod_eq_zero, ← Int64.toInt_mod, toInt_eq_zero_iff]
  rw [floorDiv]
  by_cases hr : a % b = 0
  · rw [if_neg fun hd => hd.1 hr, toInt_div h, Int.fdiv_eq_tdiv, if_pos (hdvd.mpr hr), Int.sub_zero]
  · have hb0 : b.toInt ≠ 0 := mt toInt_eq_zero_iff.mp hb
    have hsigns : (a < 0 ↔ b < 0) ↔ (a.toInt < 0 ↔ b.toInt < 0) :=
      iff_congr Int64.lt_iff_toInt_lt Int64.lt_iff_toInt_lt
    rw [fdiv_eq_of_not_dvd hb0 (mt hdvd.mp hr)]
    by_cases hs : a < 0 ↔ b < 0
    · rw [if_neg fun hd => hd.2 (decide_eq_decide.mpr hs), if_pos (hsigns.mp hs), toInt_div h]
    · rw [if_pos ⟨hr, fun hd => hs (decide_eq_decide.mp hd)⟩, if_neg (mt hsigns.mpr hs), toInt_div_sub_one hb hr h]

/-! ### Operators -/

variable {op : Operator} {p q : Int} {f : Fault} {o : Option Int64}

theorem orOverflow_eq_ok_iff : apply.orOverflow op o = .ok n ↔ o = some n := by
  cases o <;> simp [apply.orOverflow]

theorem fault?_eq (hr : op.result? p q = some m) :
    op.fault? p q = if FitsWord m then none else some (.overflow op) := by
  rw [fault?, hr]

theorem fault?_eq_none_iff : op.fault? p q = none ↔ (op = .div → q ≠ 0) ∧ FitsWord ((op.result? p q).getD 0) := by
  cases op with
  | add | sub | mul => simp [fault?, result?]
  | div =>
    by_cases hq : q = 0
    · simp [fault?, result?, hq]
    · simp [fault?, result?, hq]

theorem orOverflow_eq_error_iff (hr : op.result? p q = some m) (h : ∀ n, o = some n ↔ n.toInt = m) :
    apply.orOverflow op o = .error f ↔ op.fault? p q = some f := by
  rw [fault?_eq hr]
  cases o with
  | none =>
    have hfit : ¬ FitsWord m := fun hfit => by
      obtain ⟨n, hn⟩ := exists_toInt_eq hfit
      cases (h n).mpr hn
    simp [apply.orOverflow, hfit]
  | some n =>
    have hfit : FitsWord m := (h n).mp rfl ▸ fitsWord_toInt n
    simp [apply.orOverflow, hfit]

/-- The one quotient of two words that is no word itself. -/
theorem not_fitsWord_fdiv (h : a = Int64.minValue ∧ b = -1) : ¬ FitsWord (a.toInt.fdiv b.toInt) := by
  rw [h.1, h.2]
  decide

theorem apply_eq_ok_iff : op.apply a b = .ok n ↔ op.result? a.toInt b.toInt = some n.toInt := by
  cases op with
  | add => rw [apply, orOverflow_eq_ok_iff, checkedAdd_eq_some_iff, result?, Option.some.injEq, eq_comm]
  | sub => rw [apply, orOverflow_eq_ok_iff, checkedSub_eq_some_iff, result?, Option.some.injEq, eq_comm]
  | mul => rw [apply, orOverflow_eq_ok_iff, checkedMul_eq_some_iff, result?, Option.some.injEq, eq_comm]
  | div =>
    simp only [apply, result?, toInt_eq_zero_iff]
    split
    · exact iff_of_false nofun nofun
    · next hb =>
      split
      · next h =>
        refine iff_of_false nofun fun hn => not_fitsWord_fdiv h ?_
        rw [Option.some.inj hn]
        exact fitsWord_toInt n
      · next h => rw [Except.ok.injEq, Option.some.injEq, ← Int64.toInt_inj, toInt_floorDiv hb h]

theorem apply_eq_error_iff : op.apply a b = .error f ↔ op.fault? a.toInt b.toInt = some f := by
  cases op with
  | add => exact orOverflow_eq_error_iff rfl fun n => checkedAdd_eq_some_iff
  | sub => exact orOverflow_eq_error_iff rfl fun n => checkedSub_eq_some_iff
  | mul => exact orOverflow_eq_error_iff rfl fun n => checkedMul_eq_some_iff
  | div =>
    by_cases hb : b = 0
    · have hf : div.fault? a.toInt b.toInt = some .divisionByZero := by simp [fault?, result?, hb]
      rw [apply, if_pos hb, hf, Except.error.injEq, Option.some.injEq]
    · have hr : div.result? a.toInt b.toInt = some (a.toInt.fdiv b.toInt) := if_neg (mt toInt_eq_zero_iff.mp hb)
      rw [apply, if_neg hb, fault?_eq hr]
      by_cases h : a = Int64.minValue ∧ b = -1
      · rw [if_pos h, if_neg (not_fitsWord_fdiv h), Except.error.injEq, Option.some.injEq]
      · have hfit : FitsWord (a.toInt.fdiv b.toInt) := toInt_floorDiv hb h ▸ fitsWord_toInt _
        rw [if_neg h, if_pos hfit]
        exact iff_of_false nofun nofun

/-! ### What an operator gives -/

theorem result?_eq_none_iff : op.result? p q = none ↔ op = .div ∧ q = 0 := by
  cases op with
  | add | sub | mul => simp [result?]
  | div => by_cases hq : q = 0 <;> simp [result?, hq]

/-- The two ways in which an operation is at fault. -/
theorem fault?_eq_some_iff : op.fault? p q = some f ↔
    (f = .divisionByZero ∧ op = .div ∧ q = 0) ∨ (f = .overflow op ∧ ∃ m, op.result? p q = some m ∧ ¬ FitsWord m) := by
  rw [← result?_eq_none_iff]
  cases hr : op.result? p q with
  | none => simp [fault?, hr, eq_comm]
  | some m => by_cases hm : FitsWord m <;> simp [fault?, hr, hm, eq_comm]

theorem div_apply_eq_ok_iff :
    div.apply a b = .ok n ↔ b ≠ 0 ∧ ¬ (a = Int64.minValue ∧ b = -1) ∧ floorDiv a b = n := by
  rw [apply]
  split
  · next hb => simp [hb]
  · next hb => split <;> simp_all

theorem div_apply_eq_overflow_iff :
    div.apply a b = .error (.overflow div) ↔ a = Int64.minValue ∧ b = -1 := by
  rw [apply]
  split
  · next hb => simp [hb]
  · split <;> simp_all

/-- What rounding down leaves is less than the divisor, and has its sign unless it is zero. -/
theorem fmod_bounds (p : Int) {q : Int} (hq : q ≠ 0) :
    (p.fmod q).natAbs < q.natAbs ∧ (p.fmod q = 0 ∨ (p.fmod q < 0 ↔ q < 0)) := by
  rcases Int.lt_or_gt_of_ne hq with hneg | hpos
  · have hflip : p.fmod q = -((-p).fmod (-q)) := by rw [Int.neg_fmod_neg, Int.neg_neg]
    have hlo := Int.fmod_nonneg_of_pos (-p) (Int.neg_pos_of_neg hneg)
    have hhi := Int.fmod_lt_of_pos (-p) (Int.neg_pos_of_neg hneg)
    omega
  · have hlo := Int.fmod_nonneg_of_pos p hpos
    have hhi := Int.fmod_lt_of_pos p hpos
    omega

/-- The steps of a division stay within 64 bits: the quotient toward zero, its remainder, and one less than the
    quotient where there is a remainder and the signs differ. -/
structure DivisionFits (a b : Int64) : Prop where
  quotient : (a / b).toInt = a.toInt.tdiv b.toInt
  remainder : (a % b).toInt = a.toInt.tmod b.toInt
  correction : a % b ≠ 0 → decide (a < 0) ≠ decide (b < 0) → (a / b - 1).toInt = a.toInt.tdiv b.toInt - 1

theorem divisionFits (hb : b ≠ 0) (h : ¬ (a = Int64.minValue ∧ b = -1)) : DivisionFits a b where
  quotient := toInt_div h
  remainder := Int64.toInt_mod a b
  correction hr _ := toInt_div_sub_one hb hr h

/-- An operator gives the exact result where there is one that fits into 64 bits, and is at fault otherwise: by a
    division by zero if it divides by zero, and else by its own overflow, which for quotients is one case only. A
    quotient is rounded down, and none of the steps that lead to it wraps. -/
theorem apply_exact (a b : Int64) :
    (∀ op : Operator,
      (∀ n, op.apply a b = .ok n ↔ ∃ m, op.result? a.toInt b.toInt = some m ∧ FitsWord m ∧ n.toInt = m) ∧
      (op.apply a b = .error .divisionByZero ↔ op = .div ∧ b = 0) ∧
      (op.apply a b = .error (.overflow op) ↔ ∃ m, op.result? a.toInt b.toInt = some m ∧ ¬ FitsWord m) ∧
      (∀ f, op.apply a b = .error f → f = .divisionByZero ∨ f = .overflow op)) ∧
    (div.apply a b = .error (.overflow div) ↔ a = Int64.minValue ∧ b = -1) ∧
    (∀ n, div.apply a b = .ok n →
      (∃ r, a.toInt = b.toInt * n.toInt + r ∧ (r = 0 ∨ (r < 0 ↔ b.toInt < 0)) ∧ r.natAbs < b.toInt.natAbs) ∧
      DivisionFits a b) := by
  refine ⟨fun op => ⟨fun n => ?_, ?_, ?_, fun f hf => ?_⟩, div_apply_eq_overflow_iff, fun n hn => ?_⟩
  · rw [apply_eq_ok_iff]
    constructor
    · intro hr
      exact ⟨n.toInt, hr, fitsWord_toInt n, rfl⟩
    · rintro ⟨m, hr, -, rfl⟩
      exact hr
  · simp [apply_eq_error_iff, fault?_eq_some_iff, toInt_eq_zero_iff]
  · simp [apply_eq_error_iff, fault?_eq_some_iff]
  · rcases fault?_eq_some_iff.mp (apply_eq_error_iff.mp hf) with ⟨hf, -⟩ | ⟨hf, -⟩
    · exact Or.inl hf
    · exact Or.inr hf
  · obtain ⟨hb, h, rfl⟩ := div_apply_eq_ok_iff.mp hn
    obtain ⟨hlt, hsign⟩ := fmod_bounds a.toInt (mt toInt_eq_zero_iff.mp hb)
    refine ⟨⟨a.toInt.fmod b.toInt, ?_, hsign, hlt⟩, divisionFits hb h⟩
    rw [toInt_floorDiv hb h, Int.mul_fdiv_add_fmod]

end Operator

end Imp
