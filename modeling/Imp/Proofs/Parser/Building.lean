import Imp.Parser.Finished
import Imp.Proofs.Parser.Built

/-! # What a run builds

What has been built before does not show in the answer of a run, and a run adds to it always the same: from a
tree that fits the parser it comes to the least tree that has, besides what was there, what this position needs.
A run that is finished answers and builds the same with more fuel. -/

namespace Imp

namespace Parser

open Built

variable {ν : Type} {ty : ν → Type} {α β : Type}

/-! ### What a run adds -/

/-- From every tree that fits, a run gives the answer of the plain run `g` and comes to a tree that fits. What it
    adds to the tree is the same for all of them. -/
def Adds (fits : Built ν → Prop) (f : Building ν α) (g : Nat → Answer α) : Prop :=
  ∀ pos, ∃ U : Built ν → Prop, ∀ b, fits b → ∃ c, f b pos = (g pos, c) ∧ fits c ∧ Joins b U c

section Combinations

variable {P Q : Built ν → Prop} {f : Building ν α} {g : Nat → Answer α} {f' : Building ν β} {g' : Nat → Answer β}

theorem Adds.leaf (g : Nat → Answer α) : Adds P (fun b pos => (g pos, b)) g := fun _ =>
  ⟨_, fun b hb => ⟨b, rfl, hb, .none b⟩⟩

/-- The answer of a part is changed, and the tree is the part's. -/
theorem Adds.part (h : Adds P f g) (change : Nat → Answer α → Answer β) :
    Adds P (fun b pos => (change pos (f b pos).1, (f b pos).2)) fun pos => change pos (g pos) := by
  intro pos
  obtain ⟨U, hU⟩ := h pos
  refine ⟨U, fun b hb => ?_⟩
  obtain ⟨c, hc, hfit, hj⟩ := hU b hb
  exact ⟨c, by simp only [hc], hfit, hj⟩

theorem Adds.rounds (h : Adds P f g) (fuel : Nat) : Adds P (repeatBuilding f fuel) (repeatRun g fuel) := by
  intro pos
  induction fuel generalizing pos with
  | zero => exact ⟨_, fun b hb => ⟨b, rfl, hb, .none b⟩⟩
  | succ fuel ih =>
    obtain ⟨U, hU⟩ := h pos
    cases hg : g pos with
    | success v next =>
      obtain ⟨V, hV⟩ := ih next
      refine ⟨fun x => U x ∧ V x, fun b hb => ?_⟩
      obtain ⟨c, hc, hfit, hj⟩ := hU b hb
      obtain ⟨d, hd, hfit', hj'⟩ := hV c hfit
      exact ⟨d, by simp only [repeatBuilding, repeatRun, hc, hg, hd], hfit', hj.trans hj'⟩
    | _ =>
      refine ⟨U, fun b hb => ?_⟩
      obtain ⟨c, hc, hfit, hj⟩ := hU b hb
      exact ⟨c, by simp only [repeatBuilding, repeatRun, hc, hg], hfit, hj⟩

theorem Adds.left (h : Adds P f g) (Q : Built ν → Prop) (pos : Nat) : ∃ U : Built ν → Prop, ∀ b, Parted P Q b →
    ∃ l, f b.left pos = (g pos, l) ∧ Parted P Q (.parts l b.right) ∧ Joins b U (.parts l b.right) := by
  obtain ⟨U, hU⟩ := h pos
  refine ⟨OnParts U fun _ => True, fun b hb => ?_⟩
  obtain ⟨l, hl, hfit, hj⟩ := hU b.left hb.left
  exact ⟨l, hl, .parts hfit hb.right, .parts hb.le hj (.none b.right)⟩

theorem Adds.right (h : Adds Q f' g') (P : Built ν → Prop) (pos : Nat) : ∃ V : Built ν → Prop, ∀ b, Parted P Q b →
    ∃ r, f' b.right pos = (g' pos, r) ∧ Parted P Q (.parts b.left r) ∧ Joins b V (.parts b.left r) := by
  obtain ⟨V, hV⟩ := h pos
  refine ⟨OnParts (fun _ => True) V, fun b hb => ?_⟩
  obtain ⟨r, hr, hfit, hj⟩ := hV b.right hb.right
  exact ⟨r, hr, .parts hb.left hfit, .parts hb.le (.none b.left) hj⟩

theorem Adds.chain {separator : Building ν (α → α → α)} {separator' : Nat → Answer (α → α → α)} (ho : Adds P f g)
    (hs : Adds Q separator separator') (fuel : Nat) (left : α) :
    Adds (Parted P Q) (chainBuilding f separator fuel left) (chainRun g separator' fuel left) := by
  intro pos
  induction fuel generalizing left pos with
  | zero => exact ⟨_, fun b hb => ⟨b, rfl, hb, .none b⟩⟩
  | succ fuel ih =>
    obtain ⟨V, hV⟩ := hs.right P pos
    cases hsep : separator' pos with
    | success join mid =>
      obtain ⟨U, hU⟩ := ho.left Q mid
      cases hop : g mid with
      | success right next =>
        -- A round runs the separator on the right part and then the operand on the left one.
        obtain ⟨W, hW⟩ := ih (join left right) next
        refine ⟨fun x => (V x ∧ U x) ∧ W x, fun b hb => ?_⟩
        obtain ⟨s, hbs, hfit, hj⟩ := hV b hb
        obtain ⟨o, hbo, hfit', hj'⟩ := hU (.parts b.left s) hfit
        obtain ⟨c, hc, hfit'', hj''⟩ := hW (.parts o s) hfit'
        rw [Built.left] at hbo
        exact ⟨c, by simp only [chainBuilding, chainRun, hbs, hsep, hbo, hop, hc], hfit'', (hj.trans hj').trans hj''⟩
      | _ =>
        refine ⟨fun x => V x ∧ U x, fun b hb => ?_⟩
        obtain ⟨s, hbs, hfit, hj⟩ := hV b hb
        obtain ⟨o, hbo, hfit', hj'⟩ := hU (.parts b.left s) hfit
        rw [Built.left] at hbo
        exact ⟨.parts o s, by simp only [chainBuilding, chainRun, hbs, hsep, hbo, hop], hfit', hj.trans hj'⟩
    | _ =>
      refine ⟨V, fun b hb => ?_⟩
      obtain ⟨s, hbs, hfit, hj⟩ := hV b hb
      exact ⟨.parts b.left s, by simp only [chainBuilding, chainRun, hbs, hsep], hfit, hj⟩

end Combinations

variable {ts : Array Token}

theorem buildWith_adds {called : (n : ν) → Building ν (ty n)} {called' : (n : ν) → Nat → Answer (ty n)}
    {fits : ν → Built ν → Prop} (hc : ∀ n, Adds (fits n) (called n) (called' n)) (fuel : Nat) {α : Type} (p : Parser ty α) :
    Adds (p.FitsWith fits) (p.buildWith ts called fuel) (p.runWith ts called' fuel) := by
  induction p with
  | token text kind => exact .leaf _
  | ofKind kind => exact .leaf _
  | fail => exact .leaf _
  | seq p q ihp ihq =>
    intro pos
    obtain ⟨U, hU⟩ := ihp.left (q.FitsWith fits) pos
    cases hp : p.runWith ts called' fuel pos with
    | success v mid =>
      obtain ⟨V, hV⟩ := ihq.right (p.FitsWith fits) mid
      refine ⟨fun x => U x ∧ V x, fun b hb => ?_⟩
      obtain ⟨l, hl, hfit, hj⟩ := hU b hb
      obtain ⟨r, hr, hfit', hj'⟩ := hV (.parts l b.right) hfit
      rw [Built.right] at hr
      exact ⟨.parts l r, by simp only [buildWith, runWith, hl, hp, hr, Answer.bind], hfit', hj.trans hj'⟩
    | _ =>
      refine ⟨U, fun b hb => ?_⟩
      obtain ⟨l, hl, hfit, hj⟩ := hU b hb
      exact ⟨.parts l b.right, by simp only [buildWith, runWith, hl, hp, Answer.bind], hfit, hj⟩
  | alt p q ihp ihq =>
    intro pos
    obtain ⟨U, hU⟩ := ihp.left (q.FitsWith fits) pos
    cases hp : p.runWith ts called' fuel pos with
    | failure =>
      obtain ⟨V, hV⟩ := ihq.right (p.FitsWith fits) pos
      refine ⟨fun x => U x ∧ V x, fun b hb => ?_⟩
      obtain ⟨l, hl, hfit, hj⟩ := hU b hb
      obtain ⟨r, hr, hfit', hj'⟩ := hV (.parts l b.right) hfit
      rw [Built.right] at hr
      exact ⟨.parts l r, by simp only [buildWith, runWith, hl, hp, hr, Answer.orElse], hfit', hj.trans hj'⟩
    | _ =>
      refine ⟨U, fun b hb => ?_⟩
      obtain ⟨l, hl, hfit, hj⟩ := hU b hb
      exact ⟨.parts l b.right, by simp only [buildWith, runWith, hl, hp, Answer.orElse], hfit, hj⟩
  | opt p ih => exact ih.part Answer.optional
  | rep p ih => exact ih.rounds fuel
  | map f p ih => exact ih.part fun _ => Answer.map f
  | filterMap f p ih => exact ih.part fun _ => Answer.filterMap f
  | chainLeft p s ihp ihs =>
    intro pos
    obtain ⟨U, hU⟩ := ihp.left (s.FitsWith fits) pos
    cases hp : p.runWith ts called' fuel pos with
    | success v mid =>
      obtain ⟨W, hW⟩ := ihp.chain ihs fuel v mid
      refine ⟨fun x => U x ∧ W x, fun b hb => ?_⟩
      obtain ⟨l, hl, hfit, hj⟩ := hU b hb
      obtain ⟨c, hc, hfit', hj'⟩ := hW (.parts l b.right) hfit
      exact ⟨c, by simp only [buildWith, runWith, hl, hp, hc, Answer.bind], hfit', hj.trans hj'⟩
    | _ =>
      refine ⟨U, fun b hb => ?_⟩
      obtain ⟨l, hl, hfit, hj⟩ := hU b hb
      exact ⟨.parts l b.right, by simp only [buildWith, runWith, hl, hp, Answer.bind], hfit, hj⟩
  | phrase p ih => exact ih.part fun _ => Answer.endingAt ts.size
  | call n =>
    intro pos
    obtain ⟨U, hU⟩ := hc n pos
    refine ⟨OnCopy n U, fun b hb => ?_⟩
    obtain ⟨c, hc, hfit, hj⟩ := hU b.within hb.within
    exact ⟨.copy n c, by simp only [buildWith, runWith, hc], ⟨le_rfl, hfit⟩, .copy hb.le hj⟩

theorem buildCall_adds (defs : Family ty) (fuel : Nat) (n : ν) :
    Adds (FitsCall defs fuel n) (buildCall defs ts fuel n) (runCall defs ts fuel n) := by
  induction fuel generalizing n with
  | zero => exact .leaf _
  | succ fuel ih => exact buildWith_adds ih fuel (defs n)

/-- A run from a tree that fits gives the answer of the plain run, and what it adds to the tree depends on the
    position only. -/
theorem runBuilding_adds (defs : Family ty) (ts : Array Token) (fuel : Nat) (p : Parser ty α) :
    Adds (p.Fits defs fuel) (p.runBuilding defs ts fuel) (p.run defs ts fuel) :=
  buildWith_adds (buildCall_adds defs fuel) fuel p

/-! ### More fuel -/

/-- The second run is the first one, or the first one was unfinished. -/
def BuildsUpto (r r' : Answer α × Built ν) : Prop := (∃ b, r = (.unfinished, b)) ∨ r = r'

theorem repeatBuilding_upto {step step' : Building ν α} (hs : ∀ b pos, BuildsUpto (step b pos) (step' b pos)) {n m : Nat}
    (hnm : n ≤ m) (b : Built ν) (pos : Nat) :
    BuildsUpto (repeatBuilding step n b pos) (repeatBuilding step' m b pos) := by
  induction n generalizing m b pos with
  | zero => exact .inl ⟨b, rfl⟩
  | succ n ih =>
    obtain ⟨m, rfl⟩ : ∃ k, m = k + 1 := ⟨m - 1, by omega⟩
    simp only [repeatBuilding]
    rcases hs b pos with ⟨c, h⟩ | h
    · exact .inl ⟨c, by rw [h]⟩
    · rw [h]
      obtain ⟨a, c⟩ := step' b pos
      cases a with
      | success v next =>
        rcases ih (m := m) (by omega) c next with ⟨d, h⟩ | h
        · exact .inl ⟨d, by simp only [h]; rfl⟩
        · exact .inr (by simp only [h])
      | _ => exact .inr rfl

theorem chainBuilding_upto {operand operand' : Building ν α} {separator separator' : Building ν (α → α → α)}
    (ho : ∀ b pos, BuildsUpto (operand b pos) (operand' b pos))
    (hs : ∀ b pos, BuildsUpto (separator b pos) (separator' b pos)) {n m : Nat} (hnm : n ≤ m) (left : α) (b : Built ν)
    (pos : Nat) : BuildsUpto (chainBuilding operand separator n left b pos) (chainBuilding operand' separator' m left b pos) := by
  induction n generalizing m left b pos with
  | zero => exact .inl ⟨b, rfl⟩
  | succ n ih =>
    obtain ⟨m, rfl⟩ : ∃ k, m = k + 1 := ⟨m - 1, by omega⟩
    simp only [chainBuilding]
    rcases hs b.right pos with ⟨c, h⟩ | h
    · exact .inl ⟨.parts b.left c, by rw [h]⟩
    · rw [h]
      obtain ⟨a, s⟩ := separator' b.right pos
      cases a with
      | success join mid =>
        rcases ho b.left mid with ⟨c, h⟩ | h
        · exact .inl ⟨.parts c s, by simp only [h]⟩
        · simp only [h]
          obtain ⟨a, o⟩ := operand' b.left mid
          cases a with
          | success right next => exact ih (by omega) _ _ next
          | _ => exact .inr rfl
      | _ => exact .inr rfl

theorem buildWith_upto {called called' : (n : ν) → Building ν (ty n)}
    (hc : ∀ n b pos, BuildsUpto (called n b pos) (called' n b pos)) {n m : Nat} (hnm : n ≤ m) {α : Type} (p : Parser ty α)
    (b : Built ν) (pos : Nat) : BuildsUpto (p.buildWith ts called n b pos) (p.buildWith ts called' m b pos) := by
  induction p generalizing b pos with
  | token text kind => exact .inr rfl
  | ofKind kind => exact .inr rfl
  | fail => exact .inr rfl
  | seq p q ihp ihq =>
    simp only [buildWith]
    rcases ihp b.left pos with ⟨c, h⟩ | h
    · exact .inl ⟨.parts c b.right, by rw [h]⟩
    · rw [h]
      obtain ⟨a, l⟩ := p.buildWith ts called' m b.left pos
      cases a with
      | success v mid =>
        rcases ihq b.right mid with ⟨c, h⟩ | h
        · exact .inl ⟨.parts l c, by simp only [h]; rfl⟩
        · exact .inr (by simp only [h])
      | _ => exact .inr rfl
  | alt p q ihp ihq =>
    simp only [buildWith]
    rcases ihp b.left pos with ⟨c, h⟩ | h
    · exact .inl ⟨.parts c b.right, by rw [h]⟩
    · rw [h]
      obtain ⟨a, l⟩ := p.buildWith ts called' m b.left pos
      cases a with
      | failure =>
        rcases ihq b.right pos with ⟨c, h⟩ | h
        · exact .inl ⟨.parts l c, by simp only [h]⟩
        · exact .inr (by simp only [h])
      | _ => exact .inr rfl
  | rep p ih => exact repeatBuilding_upto ih hnm b pos
  | opt p ih | map _ p ih | filterMap _ p ih | phrase p ih =>
    simp only [buildWith]
    rcases ih b pos with ⟨c, h⟩ | h
    · exact .inl ⟨c, by rw [h]; rfl⟩
    · exact .inr (by rw [h])
  | chainLeft p s ihp ihs =>
    simp only [buildWith]
    rcases ihp b.left pos with ⟨c, h⟩ | h
    · exact .inl ⟨.parts c b.right, by rw [h]⟩
    · rw [h]
      obtain ⟨a, l⟩ := p.buildWith ts called' m b.left pos
      cases a with
      | success v next => exact chainBuilding_upto ihp ihs hnm v _ next
      | _ => exact .inr rfl
  | call k =>
    simp only [buildWith]
    rcases hc k b.within pos with ⟨c, h⟩ | h
    · exact .inl ⟨.copy k c, by rw [h]⟩
    · exact .inr (by rw [h])

theorem buildCall_upto {defs : Family ty} {n m : Nat} (hnm : n ≤ m) (k : ν) (b : Built ν) (pos : Nat) :
    BuildsUpto (buildCall defs ts n k b pos) (buildCall defs ts m k b pos) := by
  induction n generalizing m k b pos with
  | zero => exact .inl ⟨b, rfl⟩
  | succ n ih =>
    obtain ⟨m, rfl⟩ : ∃ j, m = j + 1 := ⟨m - 1, by omega⟩
    exact buildWith_upto (fun k => ih (by omega) k) (by omega) (defs k) b pos

/-- More fuel does not change what a finished run answers and builds. -/
theorem runBuilding_upto {defs : Family ty} {n m : Nat} (hnm : n ≤ m) (p : Parser ty α) (b : Built ν) (pos : Nat) :
    BuildsUpto (p.runBuilding defs ts n b pos) (p.runBuilding defs ts m b pos) :=
  buildWith_upto (fun k => buildCall_upto hnm k) hnm p b pos
end Parser

end Imp
