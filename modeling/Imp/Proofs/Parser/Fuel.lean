import Imp.Proofs.Parser.Within

/-! # Fuel that is enough

A call within a call stands further on, or it is made before a token is taken. Where definitions have ranks that fall
from each to those it calls first, calls at one position nest no deeper than the ranks are high, and a loop whose rounds
take tokens goes round no more often than there are tokens; so the fuel that is enough grows with the ranks and with the
tokens that are left. In a well-formed family the rank of a definition is the number of definitions that it leads to.
Where definitions take a token before they call one another, one rank will do, and the number of tokens that are left,
and two more, is fuel enough for every run. -/

namespace Imp

theorem Answer.orElse_finished_of_failure {α : Type} {a : Answer α} {b : Unit → Answer α} (ha : a ≠ .unfinished)
    (hb : a = .failure → b () ≠ .unfinished) : a.orElse b ≠ .unfinished := by
  cases a with
  | failure => exact hb rfl
  | _ => exact ha

namespace Parser

variable {ν : Type} {ty : ν → Type} {α : Type} {defs : Family ty} {ts : Array Token} {pos q : Nat}

/-! ### Loops -/

section

variable {round : Nat → Nat → Prop} (hround : ∀ {q next}, round q next → q < next ∧ next ≤ ts.size)

include hround

theorem repeatRun_finished {step : Nat → Answer α} (hstep : ∀ {q v next}, step q = .success v next → round q next)
    (hs : ∀ q, Rounds round pos q → step q ≠ .unfinished) {n : Nat} (hn : ts.size - pos < n) :
    repeatRun step n pos ≠ .unfinished := by
  induction n generalizing pos with
  | zero => omega
  | succ n ih =>
    simp only [repeatRun]
    cases hv : step pos with
    | unfinished => exact absurd hv (hs pos .none)
    | failure => simp
    | success v next =>
      have hnext := hround (hstep hv)
      exact Answer.map_finished (ih (fun q hq => hs q (.more (hstep hv) hq)) (by omega))

theorem chainRun_finished {operand : Nat → Answer α} {separator : Nat → Answer (α → α → α)}
    (hstep : ∀ {q join mid right next}, separator q = .success join mid → operand mid = .success right next →
      round q next)
    (hs : ∀ q, Rounds round pos q → separator q ≠ .unfinished)
    (ho : ∀ q join mid, Rounds round pos q → separator q = .success join mid → operand mid ≠ .unfinished)
    {n : Nat} (hn : ts.size - pos < n) (left : α) : chainRun operand separator n left pos ≠ .unfinished := by
  induction n generalizing pos left with
  | zero => omega
  | succ n ih =>
    cases hsep : separator pos with
    | unfinished => exact absurd hsep (hs pos .none)
    | failure => simp [chainRun_of_absent hsep]
    | success join mid =>
      cases hop : operand mid with
      | unfinished => exact absurd hop (ho pos join mid .none hsep)
      | failure => simp [chainRun_of_dangling hsep hop]
      | success right next =>
        have hr := hstep hsep hop
        have hnext := hround hr
        rw [chainRun_of_round hsep hop]
        exact ih (fun q hq => hs q (.more hr hq)) (fun q join mid hq => ho q join mid (.more hr hq)) (by omega) _

end

variable {p : Parser ty α}

theorem RepeatRound.bounds (hp : ¬ Nullable defs p) (h : RepeatRound (answer defs ts p) pos q) :
    pos < q ∧ q ≤ ts.size := by
  obtain ⟨v, hv⟩ := h
  have hlt := answer_advances hp hv
  exact ⟨hlt, (answer_forward defs p hv).le_size hlt⟩

theorem ChainRound.bounds {s : Parser ty (α → α → α)} (hl : LoopsAdvance defs (chainLeft p s))
    (h : ChainRound (answer defs ts p) (answer defs ts s) pos q) : pos < q ∧ q ≤ ts.size := by
  have hlt := h.lt hl
  exact ⟨hlt, (h.reaches (answer_forward defs p) (answer_forward defs s)).le_size hlt⟩

/-! ### Runs -/

/-- With fuel for the tokens that are left and one more, a run is finished if the calls within it are. -/
theorem runWith_finished {k fuel : Nat} (hl : LoopsAdvance defs p) (hf : ts.size - pos < fuel)
    (hc : ∀ n q, Within defs ts (.call n) q p pos → runCall defs ts k n q ≠ .unfinished) :
    p.runWith ts (runCall defs ts k) fuel pos ≠ .unfinished := by
  induction p generalizing pos with
  | token => exact take_finished ts _ pos
  | ofKind => exact take_finished ts _ pos
  | fail => simp [runWith]
  | seq p r ihp ihr =>
    refine Answer.bind_finished (ihp hl.1 hf fun n q hw => hc n q (.first hw)) fun v mid hv => Answer.map_finished ?_
    have hv := answer_success_of_runWith hv
    have hle := (answer_forward defs p hv).1
    exact ihr hl.2 (by omega) fun n q hw => hc n q (.second hv hw)
  | alt p r ihp ihr =>
    refine Answer.orElse_finished_of_failure (ihp hl.1 hf fun n q hw => hc n q (.left hw)) fun hfails => ?_
    exact ihr hl.2 hf fun n q hw => hc n q (.right (answer_failure_of_runWith hfails) hw)
  | opt p ih => exact Answer.optional_finished (ih hl hf fun n q hw => hc n q (.opt hw))
  | rep p ih =>
    refine repeatRun_finished (RepeatRound.bounds hl.1) (fun hv => ⟨_, answer_success_of_runWith hv⟩)
      (fun mid hmid => ?_) hf
    have hle := hmid.repeat_reaches.1
    exact ih hl.2 (by omega) fun n q hw => hc n q (.rep hmid hw)
  | map f p ih => exact Answer.map_finished (ih hl hf fun n q hw => hc n q (.map hw))
  | filterMap f p ih => exact Answer.filterMap_finished (ih hl hf fun n q hw => hc n q (.filterMap hw))
  | chainLeft p s ihp ihs =>
    refine Answer.bind_finished (ihp hl.2.1 hf fun n q hw => hc n q (.operand hw)) fun left mid hv => ?_
    have hv := answer_success_of_runWith hv
    have hle := (answer_forward defs p hv).1
    refine chainRun_finished (ChainRound.bounds hl)
      (fun hsep hop => ⟨_, _, _, answer_success_of_runWith hsep, answer_success_of_runWith hop⟩)
      (fun stop hstop => ?_) (fun stop join next hstop hsep => ?_) (by omega) left
    · have hle' := hstop.chain_reaches.1
      exact ihs hl.2.2 (by omega) fun n q hw => hc n q (.separator hv hstop hw)
    · have hsep := answer_success_of_runWith hsep
      have hle' := hstop.chain_reaches.1
      have hle'' := (answer_forward defs s hsep).1
      exact ihp hl.2.1 (by omega) fun n q hw => hc n q (.nextOperand hv hstop hsep hw)
  | phrase p ih => exact Answer.endingAt_finished (ih hl hf fun n q hw => hc n q (.phrase hw))
  | call n => exact hc n pos .here

/-! ### Ranks -/

section

variable {rank : ν → Nat} {height : Nat} (hrank : ∀ n k, Calls defs n k → rank k < rank n)
  (hheight : ∀ n, rank n ≤ height) (hloops : ∀ n, LoopsAdvance defs (defs n))

include hrank

theorem rank_le_of_calls {k m : ν} (h : Relation.ReflTransGen (Calls defs) k m) : rank m ≤ rank k := by
  induction h with
  | refl => exact Nat.le_refl _
  | tail _ hcall ih => exact Nat.le_trans (Nat.le_of_lt (hrank _ _ hcall)) ih

include hheight

/-- A call within a call needs less fuel: it stands further on, or its rank is lower. -/
theorem Within.fuel_lt {n m : ν} (h : Within defs ts (.call m) q (defs n) pos) :
    (height + 1) * (ts.size - q) + rank m < (height + 1) * (ts.size - pos) + rank n := by
  by_cases hq : q = pos
  · obtain ⟨k, hk, hm⟩ := h.callsFirst hq
    have hlt := hrank n k hk
    have hle := rank_le_of_calls hrank hm
    rw [hq]
    omega
  · have hlt : pos < q := Nat.lt_of_le_of_ne h.reaches.1 (Ne.symm hq)
    have hsize := h.reaches.le_size hlt
    have hleft : (height + 1) * (ts.size - q + 1) ≤ (height + 1) * (ts.size - pos) :=
      Nat.mul_le_mul_left _ (by omega)
    have hm := hheight m
    rw [Nat.mul_succ] at hleft
    omega

include hloops

theorem runCall_finished {fuel : Nat} (n : ν) (hf : (height + 1) * (ts.size - pos) + rank n + 1 < fuel) :
    runCall defs ts fuel n pos ≠ .unfinished := by
  induction fuel generalizing n pos with
  | zero => omega
  | succ fuel ih =>
    have hleft : ts.size - pos ≤ (height + 1) * (ts.size - pos) := Nat.le_mul_of_pos_left _ (Nat.succ_pos height)
    refine runWith_finished (hloops n) (by omega) fun m q hw => ih m ?_
    have hlt := hw.fuel_lt hrank hheight
    omega

/-- A run is finished with fuel for all ranks at each position that is left, and once more. -/
theorem run_finished_of_rank {fuel : Nat} (hl : LoopsAdvance defs p)
    (hf : (height + 1) * (ts.size - pos) + height + 1 < fuel) : p.run defs ts fuel pos ≠ .unfinished := by
  have hleft : ts.size - pos ≤ (height + 1) * (ts.size - pos) := Nat.le_mul_of_pos_left _ (Nat.succ_pos height)
  refine runWith_finished hl (by omega) fun n q hw => runCall_finished hrank hheight hloops n ?_
  have hle : (height + 1) * (ts.size - q) ≤ (height + 1) * (ts.size - pos) :=
    Nat.mul_le_mul_left _ (Nat.sub_le_sub_left hw.reaches.1 _)
  have hn := hheight n
  omega

end

/-- Where definitions take a token before they call anything and all loops advance, a run with fuel for the tokens
    that are left and two more is finished. -/
theorem run_finished (hcalls : ∀ n k, ¬ CallsFirst defs k (defs n)) (hloops : ∀ n, LoopsAdvance defs (defs n))
    {fuel : Nat} (hl : LoopsAdvance defs p) (hf : ts.size - pos + 1 < fuel) : p.run defs ts fuel pos ≠ .unfinished := by
  have hrank : ∀ n k, Calls defs n k → 0 < 0 := fun n k hk => absurd hk (hcalls n k)
  exact run_finished_of_rank hrank (fun _ => Nat.le_refl 0) hloops hl (by omega)

/-! ### Well-formed families -/

open Classical in
/-- How many of these definitions one leads to before a token is taken, itself among them. -/
noncomputable def ranking (defs : Family ty) (names : Finset ν) (n : ν) : Nat :=
  (names.filter (Relation.ReflTransGen (Calls defs) n)).card

theorem ranking_le (names : Finset ν) (n : ν) : ranking defs names n ≤ names.card := by
  classical
  exact Finset.card_filter_le _ _

theorem WellFormed.ranking_lt (h : WellFormed defs) {names : Finset ν} {n k : ν} (hn : n ∈ names)
    (hk : Calls defs n k) : ranking defs names k < ranking defs names n := by
  classical
  refine Finset.card_lt_card ((Finset.ssubset_iff_of_subset fun m hm => ?_).mpr ⟨n, ?_, fun hback => ?_⟩)
  · obtain ⟨hm, hkm⟩ := Finset.mem_filter.mp hm
    exact Finset.mem_filter.mpr ⟨hm, .head hk hkm⟩
  · exact Finset.mem_filter.mpr ⟨hn, .refl⟩
  · -- The definition that is called does not lead back.
    exact h.calls n (.head' hk (Finset.mem_filter.mp hback).2)

/-- In a well-formed family ample fuel is enough for every run, if these are all definitions that call others first. -/
theorem WellFormed.run_ample (h : WellFormed defs) {names : Finset ν} (hnames : ∀ n k, Calls defs n k → n ∈ names)
    (hl : LoopsAdvance defs p) {fuel : Nat} (hf : ample names.card ts.size ≤ fuel) :
    p.run defs ts fuel pos ≠ .unfinished := by
  refine run_finished_of_rank (fun n k hk => h.ranking_lt (hnames n k hk) hk) (ranking_le names) h.loops hl
    (Nat.lt_of_lt_of_le ?_ hf)
  have hleft : (names.card + 1) * (ts.size - pos) ≤ (names.card + 1) * ts.size := Nat.mul_le_mul_left _ (Nat.sub_le _ _)
  rw [ample, Nat.mul_add]
  omega

end Parser

end Imp
