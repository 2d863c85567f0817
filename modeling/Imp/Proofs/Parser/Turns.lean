import Imp.Proofs.Parser.Building
import Imp.Proofs.Parser.Termination

/-! # Runs in turn

A parser that is kept finds at its next run what it has built before. After runs at several positions that is the
least tree that has what each of them needs, in whatever order they came and however often. -/

namespace Imp

namespace Parser

open Built

variable {ν : Type} {ty : ν → Type} {α : Type} {defs : Family ty} {ts : Array Token} {p : Parser ty α} {fuel : Nat}
  {b : Built ν} {positions positions' : List Nat}

/-- What has been built after these runs, where `b` was there before them. -/
def builtAfter (b : Built ν) : List (Answer α × Built ν) → Built ν
  | [] => b
  | r :: rest => builtAfter r.2 rest

theorem builtAfter_append_singleton (b : Built ν) (rs : List (Answer α × Built ν)) (r : Answer α × Built ν) :
    builtAfter b (rs ++ [r]) = r.2 := by
  induction rs generalizing b with
  | nil => rfl
  | cons s rs ih => exact ih s.2

theorem runEach_append (b : Built ν) (positions positions' : List Nat) :
    p.runEach defs ts fuel b (positions ++ positions') = p.runEach defs ts fuel b positions ++
      p.runEach defs ts fuel (builtAfter b (p.runEach defs ts fuel b positions)) positions' := by
  induction positions generalizing b with
  | nil => rfl
  | cons pos positions ih => exact congrArg _ (ih _)

theorem runEach_answers (hb : p.Fits defs fuel b) :
    (p.runEach defs ts fuel b positions).map Prod.fst = positions.map (p.run defs ts fuel) := by
  induction positions generalizing b with
  | nil => rfl
  | cons pos positions ih =>
    obtain ⟨U, hU⟩ := runBuilding_adds defs ts fuel p pos
    obtain ⟨c, hc, hfit, -⟩ := hU b hb
    simp only [runEach, List.map_cons, hc, ih hfit]

/-- No run takes away what has been built. -/
theorem runEach_grows (hb : p.Fits defs fuel b) : (∀ r ∈ p.runEach defs ts fuel b positions, b ≤ r.2) ∧
    (p.runEach defs ts fuel b positions).Pairwise fun r r' => r.2 ≤ r'.2 := by
  induction positions generalizing b with
  | nil => exact ⟨nofun, .nil⟩
  | cons pos positions ih =>
    obtain ⟨U, hU⟩ := runBuilding_adds defs ts fuel p pos
    obtain ⟨c, hc, hfit, hj⟩ := hU b hb
    obtain ⟨hle, hpair⟩ := ih hfit
    simp only [runEach, hc, List.forall_mem_cons, List.pairwise_cons]
    exact ⟨⟨hj.le, fun r hr => hj.le.trans (hle r hr)⟩, hle, hpair⟩

/-- After runs at several positions the tree is the least one that has what each of them needs. -/
theorem exists_joins_runEach (defs : Family ty) (ts : Array Token) (fuel : Nat) (p : Parser ty α) :
    ∃ U : Nat → Built ν → Prop, ∀ b positions, p.Fits defs fuel b →
      Joins b (fun x => ∀ pos ∈ positions, U pos x) (builtAfter b (p.runEach defs ts fuel b positions)) := by
  choose U hU using runBuilding_adds defs ts fuel p
  refine ⟨U, fun b positions hb => ?_⟩
  induction positions generalizing b with
  | nil => exact fun x => by simp [runEach, builtAfter]
  | cons pos positions ih =>
    obtain ⟨c, hc, hfit, hj⟩ := hU pos b hb
    simp only [runEach, builtAfter, hc, List.forall_mem_cons]
    exact hj.trans (ih c hfit)

/-- Runs at the same positions build the same, in any order and however often. -/
theorem builtAfter_runEach_congr (defs : Family ty) (ts : Array Token) (fuel : Nat) (p : Parser ty α)
    (h : ∀ pos, pos ∈ positions' ↔ pos ∈ positions) :
    builtAfter .nothing (p.runEach defs ts fuel .nothing positions') =
      builtAfter .nothing (p.runEach defs ts fuel .nothing positions) := by
  obtain ⟨U, hU⟩ := exists_joins_runEach defs ts fuel p
  -- What the tree must have speaks of the positions in the list only.
  have hj := hU .nothing positions' (fits_nothing defs fuel p)
  simp only [h] at hj
  exact hj.unique (hU .nothing positions (fits_nothing defs fuel p))

theorem runEach_of_le {n m : Nat} (hnm : n ≤ m) (hb : p.Fits defs n b)
    (h : ∀ pos ∈ positions, p.run defs ts n pos ≠ .unfinished) :
    p.runEach defs ts m b positions = p.runEach defs ts n b positions := by
  induction positions generalizing b with
  | nil => rfl
  | cons pos positions ih =>
    obtain ⟨U, hU⟩ := runBuilding_adds defs ts n p pos
    obtain ⟨c, hc, hfit, -⟩ := hU b hb
    obtain ⟨hpos, hrest⟩ := List.forall_mem_cons.mp h
    have hsame : p.runBuilding defs ts m b pos = p.runBuilding defs ts n b pos := by
      rcases runBuilding_upto hnm p b pos with ⟨d, hd⟩ | hd
      · rw [hc] at hd
        exact absurd (congrArg Prod.fst hd) hpos
      · exact hd.symm
    simp only [runEach, hsame, hc, ih hfit hrest]

/-- One parser that has built nothing runs at these positions in turn, and with enough fuel this is what comes of
    it. -/
def RunsEach (defs : Family ty) (ts : Array Token) (p : Parser ty α) (positions : List Nat)
    (rs : List (Answer α × Built ν)) : Prop :=
  ∃ n, ∀ m, n ≤ m → p.runEach defs ts m .nothing positions = rs

theorem exists_fuel_of_halts (h : ∀ pos ∈ positions, Halts defs ts p pos) :
    ∃ n, ∀ pos ∈ positions, p.run defs ts n pos ≠ .unfinished := by
  induction positions with
  | nil => exact ⟨0, nofun⟩
  | cons pos positions ih =>
    obtain ⟨⟨n, hn⟩, hrest⟩ := List.forall_mem_cons.mp h
    obtain ⟨n', hn'⟩ := ih hrest
    refine ⟨max n n', List.forall_mem_cons.mpr ⟨(Gives.of_le (Nat.le_max_left n n') hn).1, fun q hq => ?_⟩⟩
    exact (Gives.of_le (Nat.le_max_right n n') (hn' q hq)).1

theorem RunsEach.of_finished {n : Nat} (h : ∀ pos ∈ positions, p.run defs ts n pos ≠ .unfinished) :
    RunsEach defs ts p positions (p.runEach defs ts n .nothing positions) :=
  ⟨n, fun _ hm => runEach_of_le hm (fits_nothing defs n p) h⟩

/-- A parser that is kept answers at each position as one that has been built anew, if it comes to an end there.
    How many copies it has built never decreases; it stays the same when a position comes again; and it is the same
    for all lists of the same positions. -/
theorem runsEach_of_halts (h : ∀ pos ∈ positions, Halts defs ts p pos) (counted : ν → Bool) :
    ∃ rs, RunsEach defs ts p positions rs ∧ rs.map Prod.fst = positions.map (answer defs ts p) ∧
      (∀ pos ∈ positions, ∃ b, RunsEach defs ts p [pos] [(answer defs ts p pos, b)]) ∧
      (rs.map (·.2.count counted)).Pairwise (· ≤ ·) ∧
      (∀ pos ∈ positions, ∃ r, RunsEach defs ts p (positions ++ [pos]) (rs ++ [r]) ∧
        r.2.count counted = (builtAfter .nothing rs).count counted) ∧
      ∀ positions', (∀ pos, pos ∈ positions' ↔ pos ∈ positions) → ∃ rs', RunsEach defs ts p positions' rs' ∧
        (builtAfter .nothing rs').count counted = (builtAfter .nothing rs).count counted := by
  obtain ⟨n, hn⟩ := exists_fuel_of_halts h
  have hfit := fits_nothing defs n p
  have hrun : ∀ pos ∈ positions, answer defs ts p pos = p.run defs ts n pos := fun pos hpos => answer_eq_run (hn pos hpos)
  -- The same fuel is enough for every list of these positions.
  have hfinished : ∀ {positions'}, (∀ pos ∈ positions', pos ∈ positions) →
      RunsEach defs ts p positions' (p.runEach defs ts n .nothing positions') := fun hsub =>
    .of_finished fun pos hpos => hn pos (hsub pos hpos)
  refine ⟨p.runEach defs ts n .nothing positions, hfinished fun _ => id, ?_, fun pos hpos => ?_, ?_, fun pos hpos => ?_,
    fun positions' hmem => ?_⟩
  · rw [runEach_answers hfit]
    exact List.map_congr_left fun pos hpos => (hrun pos hpos).symm
  · obtain ⟨U, hU⟩ := runBuilding_adds defs ts n p pos
    obtain ⟨c, hc, -⟩ := hU .nothing hfit
    have hfresh := hfinished (List.forall_mem_singleton.mpr hpos)
    rw [runEach, hc, ← hrun pos hpos] at hfresh
    exact ⟨c, hfresh⟩
  · exact List.pairwise_map.mpr ((runEach_grows hfit).2.imp fun hle => count_le_count counted hle)
  · have hmem : ∀ q, q ∈ positions ++ [pos] ↔ q ∈ positions := fun q => by
      rw [List.mem_append, List.mem_singleton, or_iff_left_iff_imp]
      rintro rfl
      exact hpos
    have hagain := hfinished fun q => (hmem q).mp
    have hbuilt := builtAfter_runEach_congr defs ts n p hmem
    rw [runEach_append, runEach] at hagain hbuilt
    rw [runEach, builtAfter_append_singleton] at hbuilt
    exact ⟨_, hagain, congrArg (Built.count counted) hbuilt⟩
  · exact ⟨_, hfinished fun q => (hmem q).mp, congrArg (Built.count counted) (builtAfter_runEach_congr defs ts n p hmem)⟩

theorem runsEach_nestedLists :
    let ts : Array Token := #[⟨"(", .reserved, ⟨1, 1⟩⟩, ⟨"x", .name, ⟨1, 2⟩⟩, ⟨";", .reserved, ⟨1, 3⟩⟩, ⟨")", .reserved, ⟨1, 4⟩⟩]
    (∀ pos ∈ [1, 0, 1], Halts nestedLists ts (nestedLists true) pos) ∧
      ∃ rs, RunsEach nestedLists ts (nestedLists true) [1, 0, 1] rs ∧
        rs.map Prod.fst = [1, 0, 1].map (answer nestedLists ts (nestedLists true)) ∧
        (rs.map (·.2.count fun _ => true)).Pairwise (· ≤ ·) := by
  intro ts
  have hhalts : ∀ pos ∈ [1, 0, 1], Halts nestedLists ts (nestedLists true) pos := fun _ _ =>
    wellFormed_nestedLists.halts_of_loopsAdvance (wellFormed_nestedLists.loops true)
  obtain ⟨rs, hrs, hanswers, -, hcounts, -⟩ := runsEach_of_halts hhalts fun _ => true
  exact ⟨hhalts, rs, hrs, hanswers, hcounts⟩

/-- An item at position 0 builds a list and, within it, an item; a name at position 1 builds nothing. -/
example :
    let ts : Array Token := #[⟨"(", .reserved, ⟨1, 1⟩⟩, ⟨"x", .name, ⟨1, 2⟩⟩, ⟨";", .reserved, ⟨1, 3⟩⟩, ⟨")", .reserved, ⟨1, 4⟩⟩]
    ((nestedLists true).runEach nestedLists ts 8 .nothing [1, 0, 1]).map (·.2.count fun _ => true) = [0, 2, 2] := by
  decide

end Parser

end Imp
