import Imp.Parser.Build
import Mathlib.Order.Defs.PartialOrder

/-! # Trees of what has been built

What a parser has built only grows. Trees are ordered by what has been built in them, and two trees that fit the
same parser have a least tree above both. -/

namespace Imp

namespace Built

variable {ν : Type} {b c d l r : Built ν} {U V : Built ν → Prop} {n : ν}

/-! ### The order of trees -/

/-- What the first tree has built, the second has too. -/
inductive Le : Built ν → Built ν → Prop where
  | nothing (b : Built ν) : Le nothing b
  | parts {l l' r r' : Built ν} : Le l l' → Le r r' → Le (parts l r) (parts l' r')
  | copy {n : ν} {b c : Built ν} : Le b c → Le (copy n b) (copy n c)

theorem Le.refl (b : Built ν) : b.Le b := by
  induction b with
  | nothing => exact .nothing _
  | parts l r ihl ihr => exact .parts ihl ihr
  | copy n b ih => exact .copy ih

theorem Le.trans (h : b.Le c) (h' : c.Le d) : b.Le d := by
  induction h generalizing d with
  | nothing b => exact .nothing d
  | parts _ _ ihl ihr =>
    cases h' with
    | parts hl hr => exact .parts (ihl hl) (ihr hr)
  | copy _ ih =>
    cases h' with
    | copy h' => exact .copy (ih h')

theorem Le.antisymm (h : b.Le c) (h' : c.Le b) : b = c := by
  induction h with
  | nothing b => cases h' with | nothing => rfl
  | parts _ _ ihl ihr =>
    cases h' with
    | parts hl hr => rw [ihl hl, ihr hr]
  | copy _ ih =>
    cases h' with
    | copy h' => rw [ih h']

instance : PartialOrder (Built ν) where
  le := Le
  le_refl := Le.refl
  le_trans _ _ _ := Le.trans
  le_antisymm _ _ := Le.antisymm

theorem nothing_le (b : Built ν) : nothing ≤ b := Le.nothing b

theorem left_le_left (h : b ≤ c) : b.left ≤ c.left := by
  cases h with
  | parts hl _ => exact hl
  | _ => exact nothing_le _

theorem right_le_right (h : b ≤ c) : b.right ≤ c.right := by
  cases h with
  | parts _ hr => exact hr
  | _ => exact nothing_le _

theorem within_le_within (h : b ≤ c) : b.within ≤ c.within := by
  cases h with
  | copy h => exact h
  | _ => exact nothing_le _

theorem parts_le : parts l r ≤ b ↔ ∃ l' r', b = parts l' r' ∧ l ≤ l' ∧ r ≤ r' := by
  constructor
  · intro h
    cases h with
    | parts hl hr => exact ⟨_, _, rfl, hl, hr⟩
  · rintro ⟨l', r', rfl, hl, hr⟩
    exact .parts hl hr

theorem copy_le : copy n c ≤ b ↔ ∃ c', b = copy n c' ∧ c ≤ c' := by
  constructor
  · intro h
    cases h with
    | copy h => exact ⟨_, rfl, h⟩
  · rintro ⟨c', rfl, h⟩
    exact .copy h

theorem count_le_count (counted : ν → Bool) (h : b ≤ c) : b.count counted ≤ c.count counted := by
  induction h with
  | nothing b => exact Nat.zero_le _
  | parts _ _ ihl ihr => exact Nat.add_le_add ihl ihr
  | copy _ ih => exact Nat.add_le_add_left ih _

/-! ### The least tree that has more -/

/-- A tree with two parts, of which these hold. -/
def OnParts (U V : Built ν → Prop) (x : Built ν) : Prop := ∃ x₁ x₂, x = parts x₁ x₂ ∧ U x₁ ∧ V x₂

/-- A tree with a copy of `n`, of whose own tree this holds. -/
def OnCopy (n : ν) (U : Built ν → Prop) (x : Built ν) : Prop := ∃ y, x = copy n y ∧ U y

/-- The least tree that has what `b` has and of which `U` holds. -/
def Joins (b : Built ν) (U : Built ν → Prop) (c : Built ν) : Prop := ∀ x, c ≤ x ↔ b ≤ x ∧ U x

namespace Joins

theorem none (b : Built ν) : Joins b (fun _ => True) b := fun _ => (and_iff_left trivial).symm

theorem trans (h : Joins b U c) (h' : Joins c V d) : Joins b (fun x => U x ∧ V x) d := fun x => by
  rw [h' x, h x, and_assoc]

theorem le (h : Joins b U c) : b ≤ c := ((h c).mp le_rfl).1

theorem unique (h : Joins b U c) (h' : Joins b U d) : c = d :=
  le_antisymm ((h d).mpr ((h' d).mp le_rfl)) ((h' c).mpr ((h c).mp le_rfl))

theorem parts (hb : b ≤ .parts b.left b.right) (hl : Joins b.left U l) (hr : Joins b.right V r) :
    Joins b (OnParts U V) (.parts l r) := by
  intro x
  rw [parts_le]
  constructor
  · rintro ⟨x₁, x₂, rfl, h₁, h₂⟩
    obtain ⟨hb₁, hU⟩ := (hl x₁).mp h₁
    obtain ⟨hb₂, hV⟩ := (hr x₂).mp h₂
    exact ⟨hb.trans (.parts hb₁ hb₂), x₁, x₂, rfl, hU, hV⟩
  · rintro ⟨hbx, x₁, x₂, rfl, hU, hV⟩
    exact ⟨x₁, x₂, rfl, (hl x₁).mpr ⟨left_le_left hbx, hU⟩, (hr x₂).mpr ⟨right_le_right hbx, hV⟩⟩

theorem copy (hb : b ≤ .copy n b.within) (h : Joins b.within U c) : Joins b (OnCopy n U) (.copy n c) := by
  intro x
  rw [copy_le]
  constructor
  · rintro ⟨y, rfl, hy⟩
    obtain ⟨hby, hU⟩ := (h y).mp hy
    exact ⟨hb.trans (.copy hby), y, rfl, hU⟩
  · rintro ⟨hbx, y, rfl, hU⟩
    exact ⟨y, rfl, (h y).mpr ⟨within_le_within hbx, hU⟩⟩

end Joins

/-! ### Trees that fit a parser -/

/-- The tree of a parser with two parts, where the trees of the parts fit them. -/
structure Parted (P Q : Built ν → Prop) (b : Built ν) : Prop where
  le : b ≤ parts b.left b.right
  left : P b.left
  right : Q b.right

/-- The tree of a call, where what has been built within the copy fits the definition. -/
structure Copied (n : ν) (P : Built ν → Prop) (b : Built ν) : Prop where
  le : b ≤ copy n b.within
  within : P b.within

variable {P Q : Built ν → Prop}

theorem Parted.nothing (hP : P .nothing) (hQ : Q .nothing) : Parted P Q .nothing := ⟨nothing_le _, hP, hQ⟩

theorem Parted.parts (hl : P l) (hr : Q r) : Parted P Q (.parts l r) := ⟨le_rfl, hl, hr⟩

end Built

namespace Parser

open Built

variable {ν : Type} {ty : ν → Type} {α β : Type}

/-- A tree fits a parser if it has the parser's parts and the trees of its copies fit as `called` says. -/
def FitsWith (called : ν → Built ν → Prop) {α : Type} : Parser ty α → Built ν → Prop
  | token _ _ | ofKind _ | fail => fun _ => True
  | seq p q => Parted (p.FitsWith called) (q.FitsWith called)
  | alt p q => Parted (p.FitsWith called) (q.FitsWith called)
  | chainLeft p s => Parted (p.FitsWith called) (s.FitsWith called)
  | opt p => p.FitsWith called
  | rep p => p.FitsWith called
  | map _ p => p.FitsWith called
  | filterMap _ p => p.FitsWith called
  | phrase p => p.FitsWith called
  | call n => Copied n (called n)

/-- A tree fits the copies of a definition as deep as calls may nest; below that a run builds nothing. -/
def FitsCall (defs : Family ty) : Nat → ν → Built ν → Prop
  | 0, _ => fun _ => True
  | fuel + 1, n => (defs n).FitsWith (FitsCall defs fuel)

/-- A tree that the parser may have built. -/
def Fits (defs : Family ty) (fuel : Nat) (p : Parser ty α) : Built ν → Prop := p.FitsWith (FitsCall defs fuel)

theorem fitsWith_nothing {called : ν → Built ν → Prop} (hc : ∀ n, called n .nothing) (p : Parser ty α) :
    p.FitsWith called .nothing := by
  induction p with
  | token _ _ | ofKind _ | fail => trivial
  | seq _ _ ihp ihq | alt _ _ ihp ihq | chainLeft _ _ ihp ihq => exact .nothing ihp ihq
  | opt _ ih | rep _ ih | map _ _ ih | filterMap _ _ ih | phrase _ ih => exact ih
  | call n => exact ⟨nothing_le _, hc n⟩

theorem fits_nothing (defs : Family ty) (fuel : Nat) (p : Parser ty α) : p.Fits defs fuel .nothing := by
  refine fitsWith_nothing (fun n => ?_) p
  induction fuel generalizing n with
  | zero => trivial
  | succ fuel ih => exact fitsWith_nothing ih (defs n)
end Parser

end Imp
