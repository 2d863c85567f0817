import Imp.Parser.Basic

/-! # Reading the longest piece

A parser reads a relation between tokens and values if it answers at a position with the longest
tokens there that the relation derives a value from, and fails where there are none. A greedy parser
does not look for the longest piece; it takes what stands first and goes on as long as it can. It gets
there all the same where the relation says which tokens a piece may go on with: a piece that none of
them follows is taken exactly as it stands.

The main result is about chains. If the operands are read so, and no separator may go on an operand,
then the chain of operands with separators between them is read so too. -/

namespace Imp

/-! ### Tokens at a position -/

/-- The tokens stand in the array from a position on. -/
def Stands (ts : Array Token) (pos : Nat) (seg : List Token) : Prop := seg <+: ts.toList.drop pos

theorem length_append_cons {a b : List Token} {t : Token} (pos : Nat) :
    pos + (a ++ t :: b).length = pos + a.length + 1 + b.length := by
  rw [List.length_append, List.length_cons]
  omega

theorem length_append_singleton {a : List Token} {t : Token} (pos : Nat) :
    pos + (a ++ [t]).length = pos + a.length + 1 := by
  rw [List.length_append, List.length_singleton, Nat.add_assoc]

theorem length_enclosed {l r : Token} {seg : List Token} (pos : Nat) :
    pos + (l :: seg ++ [r]).length = pos + 1 + seg.length + 1 := by
  rw [List.length_append, List.length_cons, List.length_singleton]
  omega

namespace Stands

variable {ts : Array Token} {pos : Nat}

@[simp] theorem nil : Stands ts pos [] := List.nil_prefix

theorem cons_iff {t : Token} {seg : List Token} :
    Stands ts pos (t :: seg) ↔ ts[pos]? = some t ∧ Stands ts (pos + 1) seg := by
  unfold Stands
  by_cases hp : pos < ts.size
  · have hp' : pos < ts.toList.length := by simpa using hp
    rw [List.drop_eq_getElem_cons hp', List.cons_prefix_cons]
    simp [hp, eq_comm]
  · have hdrop : ts.toList.drop pos = [] := List.drop_eq_nil_of_le (by simpa using hp)
    simp [hdrop, hp]

theorem append_iff {a b : List Token} :
    Stands ts pos (a ++ b) ↔ Stands ts pos a ∧ Stands ts (pos + a.length) b := by
  induction a generalizing pos with
  | nil => simp
  | cons t a ih =>
    rw [List.cons_append, cons_iff, cons_iff, ih, List.length_cons, and_assoc, Nat.add_right_comm, Nat.add_assoc]

theorem append_cons_iff {a b : List Token} {t : Token} : Stands ts pos (a ++ t :: b) ↔
    Stands ts pos a ∧ ts[pos + a.length]? = some t ∧ Stands ts (pos + a.length + 1) b := by
  rw [append_iff, cons_iff]

theorem singleton_iff {t : Token} : Stands ts pos [t] ↔ ts[pos]? = some t := by
  rw [cons_iff]
  simp

theorem enclosed_iff {l r : Token} {seg : List Token} : Stands ts pos (l :: seg ++ [r]) ↔
    ts[pos]? = some l ∧ Stands ts (pos + 1) seg ∧ ts[pos + 1 + seg.length]? = some r := by
  rw [List.cons_append, cons_iff, append_iff, singleton_iff]

theorem le_size {seg : List Token} (h : Stands ts pos seg) (hs : seg ≠ []) : pos + seg.length ≤ ts.size := by
  have hle := h.length_le
  have hpos := List.length_pos_iff.mpr hs
  have hsize : ts.toList.length = ts.size := Array.length_toList
  rw [List.length_drop] at hle
  omega

theorem eq_of_length {a b : List Token} (ha : Stands ts pos a) (hb : Stands ts pos b) (h : a.length = b.length) :
    a = b :=
  (List.prefix_of_prefix_length_le ha hb (Nat.le_of_eq h)).eq_of_length h

/-- The tokens between two positions stand at the first one. -/
theorem extract (ts : Array Token) (pos stop : Nat) : Stands ts pos (ts.extract pos stop).toList := by
  unfold Stands
  rw [Array.toList_extract, List.extract_eq_take_drop]
  exact List.take_prefix _ _

theorem eq_extract {seg : List Token} (h : Stands ts pos seg) : (ts.extract pos (pos + seg.length)).toList = seg := by
  rw [Array.toList_extract, List.extract_eq_take_drop, Nat.add_sub_cancel_left]
  exact (List.prefix_iff_eq_take.mp h).symm

end Stands

/-! ### Reading -/

variable {α : Type}

/-- The tokens from `pos` up to `q` derive the value, and no longer piece that begins at `pos` derives
    any. -/
def IsLongest (ts : Array Token) (D : List Token → α → Prop) (pos : Nat) (v : α) (q : Nat) : Prop :=
  (pos ≤ q ∧ q ≤ ts.size ∧ D (ts.extract pos q).toList v) ∧
    ∀ q', q < q' → q' ≤ ts.size → ∀ v', ¬ D (ts.extract pos q').toList v'

/-- No piece that begins at `pos` derives a value. -/
def DerivesNothing (ts : Array Token) (D : List Token → α → Prop) (pos : Nat) : Prop :=
  ∀ q, pos ≤ q → q ≤ ts.size → ∀ v, ¬ D (ts.extract pos q).toList v

/-- The run answers at a position with the longest tokens there that `D` derives a value from. Only a
    token that `E` accepts may go on with a piece: where none follows, a piece is taken as it stands. -/
structure Reads (ts : Array Token) (D : List Token → α → Prop) (E : Token → Prop) (f : Nat → Answer α) (pos : Nat) :
    Prop where
  finished : f pos ≠ .unfinished
  sound : ∀ {v : α} {q : Nat}, f pos = .success v q → ∃ seg, Stands ts pos seg ∧ q = pos + seg.length ∧ D seg v
  exact : ∀ {seg : List Token} {v : α}, D seg v → Stands ts pos seg → (∀ t, ts[pos + seg.length]? = some t → ¬ E t) →
    f pos = .success v (pos + seg.length)
  longest : ∀ {seg : List Token} {v : α}, D seg v → Stands ts pos seg →
    ∃ v' q, f pos = .success v' q ∧ pos + seg.length ≤ q ∧ (q = pos + seg.length → v' = v)

namespace Reads

variable {ts : Array Token} {D : List Token → α → Prop} {E : Token → Prop} {f : Nat → Answer α} {pos : Nat}

theorem mono {E' : Token → Prop} (h : Reads ts D E f pos) (hE : ∀ t, E t → E' t) : Reads ts D E' f pos where
  finished := h.finished
  sound := h.sound
  exact := fun hd hs hn => h.exact hd hs fun t ht he => hn t ht (hE t he)
  longest := h.longest

theorem congr {D' : List Token → α → Prop} (h : Reads ts D E f pos) (hD : ∀ {seg v}, D' seg v ↔ D seg v) :
    Reads ts D' E f pos where
  finished := h.finished
  sound := fun hf => by
    obtain ⟨seg, hs, hq, hd⟩ := h.sound hf
    exact ⟨seg, hs, hq, hD.mpr hd⟩
  exact := fun hd => h.exact (hD.mp hd)
  longest := fun hd => h.longest (hD.mp hd)

/-- Nothing may go on with a piece that is always taken as it stands. -/
theorem of_exact (hf : f pos ≠ .unfinished)
    (hs : ∀ {v q}, f pos = .success v q → ∃ seg, Stands ts pos seg ∧ q = pos + seg.length ∧ D seg v)
    (he : ∀ {seg v}, D seg v → Stands ts pos seg → f pos = .success v (pos + seg.length)) :
    Reads ts D E f pos where
  finished := hf
  sound := hs
  exact := fun hd hst _ => he hd hst
  longest := fun hd hst => ⟨_, _, he hd hst, Nat.le_refl _, fun _ => rfl⟩

theorem failure_or_success (h : Reads ts D E f pos) : f pos = .failure ∨ ∃ v q, f pos = .success v q := by
  cases hf : f pos with
  | unfinished => exact absurd hf h.finished
  | failure => exact Or.inl rfl
  | success v q => exact Or.inr ⟨v, q, rfl⟩

theorem success_iff (h : Reads ts D E f pos) (hD : ∀ {seg v}, D seg v → seg ≠ []) {v : α} {q : Nat} :
    f pos = .success v q ↔ IsLongest ts D pos v q := by
  constructor
  · intro hf
    obtain ⟨seg, hs, rfl, hd⟩ := h.sound hf
    refine ⟨⟨Nat.le_add_right _ _, hs.le_size (hD hd), by rwa [hs.eq_extract]⟩, fun q' hq hle v' hd' => ?_⟩
    obtain ⟨v'', q'', hf'', hle', -⟩ := h.longest hd' (Stands.extract ts pos q')
    rw [hf] at hf''
    cases hf''
    simp only [Array.length_toList, Array.size_extract] at hle'
    omega
  · rintro ⟨⟨hpq, hq, hd⟩, hmax⟩
    have hlen : pos + (ts.extract pos q).toList.length = q := by
      simp only [Array.length_toList, Array.size_extract]
      omega
    obtain ⟨v', q', hf, hle, hv⟩ := h.longest hd (Stands.extract ts pos q)
    rw [hlen] at hle hv
    obtain ⟨seg, hs, rfl, hd'⟩ := h.sound hf
    rcases Nat.eq_or_lt_of_le hle with heq | hlt
    · rw [hf, hv heq.symm, ← heq]
    · exact absurd (hs.eq_extract.symm ▸ hd') (hmax _ hlt (hs.le_size (hD hd')) v')

theorem failure_iff (h : Reads ts D E f pos) (hD : ∀ {seg v}, D seg v → seg ≠ []) :
    f pos = .failure ↔ DerivesNothing ts D pos := by
  constructor
  · intro hf q _ _ v hd
    obtain ⟨v', q', hf', -⟩ := h.longest hd (Stands.extract ts pos q)
    rw [hf] at hf'
    cases hf'
  · intro hn
    rcases h.failure_or_success with hf | ⟨v, q, hf⟩
    · exact hf
    · obtain ⟨seg, hs, rfl, hd⟩ := h.sound hf
      exact absurd (hs.eq_extract.symm ▸ hd) (hn _ (Nat.le_add_right _ _) (hs.le_size (hD hd)) v)

/-- What reads a relation on every array shows that it derives at most one value. -/
theorem unique {seg : List Token} {g : Nat → Answer α} (h : Reads seg.toArray D E g 0) (hD : ∀ {seg v}, D seg v → seg ≠ [])
    {v v' : α} (hv : D seg v) (hv' : D seg v') : v = v' := by
  have hst : Stands seg.toArray 0 seg := by simp [Stands]
  have hend : ∀ {w}, D seg w → g 0 = .success w (0 + seg.length) := by
    intro w hw
    obtain ⟨w', q, hg, hle, hw'⟩ := h.longest hw hst
    obtain ⟨seg', hs', rfl, hd'⟩ := h.sound hg
    have hsize := hs'.le_size (hD hd')
    rw [List.size_toArray] at hsize
    have heq : 0 + seg'.length = 0 + seg.length := by omega
    rw [hg, hw' heq, heq]
  have := (hend hv).symm.trans (hend hv')
  cases this
  rfl

end Reads

end Imp
