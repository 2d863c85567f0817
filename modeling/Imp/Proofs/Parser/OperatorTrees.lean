import Imp.Parser.OperatorTree

/-! # Trees over a row

Over every operand and every row behind it there is one tree in which the operators bind as their levels
say. That it is the only one rests on its root: all operators to the left of the root are of the same
or a tighter level and all to the right of a tighter one, so the root is the last operator of the
loosest level. The tree is built by putting one operator after the other on its right edge. -/

namespace Imp

namespace OperatorTree

variable {ω α : Type} {level : ω → Nat} {t : OperatorTree ω α}

/-! ### Levels of the operators on both sides -/

/-- In a tree that binds by levels, the root's operator is of the loosest level. -/
theorem Binds.rootIs_iff {test : ω → Prop} (htest : ∀ {o o'}, level o' ≤ level o → test o → test o')
    (h : t.Binds level) : t.RootIs test ↔ ∀ x ∈ t.row, test x.1 := by
  induction t generalizing test with
  | operand v => simp [RootIs, row]
  | node op l r ihl ihr =>
    obtain ⟨hl, hr, hbl, hbr⟩ := h
    have hl := (ihl (fun hle => Nat.le_trans hle) hbl).mp hl
    have hr := (ihr (fun hle => Nat.lt_of_le_of_lt hle) hbr).mp hr
    refine ⟨fun hop x hx => ?_, fun hrow => hrow (op, r.head) (by simp [row])⟩
    rcases List.mem_append.mp hx with hx | hx
    · exact htest (hl x hx) hop
    · rcases List.mem_cons.mp hx with rfl | hx
      · exact hop
      · exact htest (Nat.le_of_lt (hr x hx)) hop

theorem binds_node_iff {op : ω} {l r : OperatorTree ω α} : (node op l r).Binds level ↔
    (∀ x ∈ l.row, level x.1 ≤ level op) ∧ (∀ x ∈ r.row, level x.1 < level op) ∧ l.Binds level ∧ r.Binds level := by
  constructor
  · rintro ⟨hl, hr, hbl, hbr⟩
    exact ⟨(hbl.rootIs_iff fun hle => Nat.le_trans hle).mp hl,
      (hbr.rootIs_iff fun hle => Nat.lt_of_le_of_lt hle).mp hr, hbl, hbr⟩
  · rintro ⟨hl, hr, hbl, hbr⟩
    exact ⟨(hbl.rootIs_iff fun hle => Nat.le_trans hle).mpr hl,
      (hbr.rootIs_iff fun hle => Nat.lt_of_le_of_lt hle).mpr hr, hbl, hbr⟩

/-- How a tree binds depends on the levels of its own operators alone. -/
theorem Binds.congr {level' : ω → Nat} (hlevel : ∀ x ∈ t.row, level x.1 = level' x.1) (h : t.Binds level) :
    t.Binds level' := by
  induction t with
  | operand v => trivial
  | node op l r ihl ihr =>
    simp only [row, List.mem_append, List.mem_cons] at hlevel
    have hop : level op = level' op := hlevel (op, r.head) (Or.inr (Or.inl rfl))
    have hrow : ∀ x ∈ l.row, level x.1 = level' x.1 := fun x hx => hlevel x (Or.inl hx)
    have hrow' : ∀ x ∈ r.row, level x.1 = level' x.1 := fun x hx => hlevel x (Or.inr (Or.inr hx))
    obtain ⟨hl, hr, hbl, hbr⟩ := binds_node_iff.mp h
    refine binds_node_iff.mpr ⟨fun x hx => ?_, fun x hx => ?_, ihl hrow hbl, ihr hrow' hbr⟩
    · rw [← hrow x hx, ← hop]
      exact hl x hx
    · rw [← hrow' x hx, ← hop]
      exact hr x hx

/-! ### One tree at most -/

/-- A row has one place at most with nothing looser to its left, and only tighter operators to its
    right. -/
theorem eq_of_splits {l l' r r' : List (ω × α)} {x x' : ω × α} (he : l ++ x :: r = l' ++ x' :: r')
    (hl : ∀ y ∈ l, level y.1 ≤ level x.1) (hr : ∀ y ∈ r, level y.1 < level x.1)
    (hl' : ∀ y ∈ l', level y.1 ≤ level x'.1) (hr' : ∀ y ∈ r', level y.1 < level x'.1) : l = l' ∧ x = x' ∧ r = r' := by
  rcases List.append_eq_append_iff.mp he with ⟨m, rfl, hm⟩ | ⟨m, rfl, hm⟩
  · cases m with
    | nil =>
      obtain ⟨rfl, rfl⟩ := List.cons.inj hm
      exact ⟨(List.append_nil l).symm, rfl, rfl⟩
    | cons y m =>
      obtain ⟨rfl, rfl⟩ := List.cons.inj hm
      have hlt : level x'.1 < level x.1 := hr x' (by simp)
      have hle : level x.1 ≤ level x'.1 := hl' x (by simp)
      omega
  · cases m with
    | nil =>
      obtain ⟨rfl, rfl⟩ := List.cons.inj hm
      exact ⟨List.append_nil l', rfl, rfl⟩
    | cons y m =>
      obtain ⟨rfl, rfl⟩ := List.cons.inj hm
      have hlt : level x.1 < level x'.1 := hr' x (by simp)
      have hle : level x'.1 ≤ level x.1 := hl x' (by simp)
      omega

theorem row_node_ne_nil {op : ω} {l r : OperatorTree ω α} : (node op l r).row ≠ [] := by simp [row]

/-- Trees that bind by levels are equal if they have the same operands and operators in the same order. -/
theorem Binds.eq {t' : OperatorTree ω α} (h : t.Binds level) (h' : t'.Binds level) (hhead : t.head = t'.head)
    (hrow : t.row = t'.row) : t = t' := by
  induction t generalizing t' with
  | operand v =>
    cases t' with
    | operand w => exact congrArg operand hhead
    | node op l r => exact absurd hrow.symm row_node_ne_nil
  | node op l r ihl ihr =>
    cases t' with
    | operand w => exact absurd hrow row_node_ne_nil
    | node op' l' r' =>
      obtain ⟨hl, hr, hbl, hbr⟩ := binds_node_iff.mp h
      obtain ⟨hl', hr', hbl', hbr'⟩ := binds_node_iff.mp h'
      obtain ⟨hll, hx, hrr⟩ := eq_of_splits hrow hl hr hl' hr'
      obtain ⟨rfl, hheadr⟩ := Prod.mk.inj hx
      rw [ihl hbl hbl' hhead hll, ihr hbr hbr' hheadr hrr]

theorem IsOver.unique {t' : OperatorTree ω α} {first : α} {row : List (ω × α)} (h : IsOver level first row t)
    (h' : IsOver level first row t') : t = t' :=
  h.binds.eq h'.binds (h.head.trans h'.head.symm) (h.row.trans h'.row.symm)

/-! ### One more operator on the right edge -/

/-- Puts an operator and its right operand behind a tree: above the operators of the right edge that are of the
    same or a tighter level. -/
def extend (level : ω → Nat) (op : ω) (v : α) : OperatorTree ω α → OperatorTree ω α
  | operand w => node op (operand w) (operand v)
  | node o l r =>
    if level o ≤ level op then node op (node o l r) (operand v) else node o l (extend level op v r)

@[simp] theorem head_extend (op : ω) (v : α) : (t.extend level op v).head = t.head := by
  induction t with
  | operand w => rfl
  | node o l r ihl ihr =>
    rw [extend]
    split <;> rfl

@[simp] theorem row_extend (op : ω) (v : α) : (t.extend level op v).row = t.row ++ [(op, v)] := by
  induction t with
  | operand w => rfl
  | node o l r ihl ihr =>
    rw [extend]
    split
    · rfl
    · simp [row, ihr]

theorem Binds.extend (h : t.Binds level) (op : ω) (v : α) : (t.extend level op v).Binds level := by
  induction t with
  | operand w => exact ⟨trivial, trivial, trivial, trivial⟩
  | node o l r ihl ihr =>
    rw [OperatorTree.extend]
    split
    · next hle => exact ⟨hle, trivial, h, trivial⟩
    · next hlt =>
      obtain ⟨hl, hr, hbl, hbr⟩ := binds_node_iff.mp h
      refine binds_node_iff.mpr ⟨hl, fun x hx => ?_, hbl, ihr hbr⟩
      rw [row_extend] at hx
      rcases List.mem_append.mp hx with hx | hx
      · exact hr x hx
      · rw [List.mem_singleton.mp hx]
        exact Nat.lt_of_not_le hlt

theorem isOver_operand (level : ω → Nat) (v : α) : IsOver level v [] (operand v) := ⟨rfl, rfl, True.intro⟩

/-- The tree over an operand and a row, built from left to right. -/
def ofRow (level : ω → Nat) (first : α) (row : List (ω × α)) : OperatorTree ω α :=
  row.foldl (fun t x => t.extend level x.1 x.2) (operand first)

theorem IsOver.foldl {first : α} {row : List (ω × α)} (h : IsOver level first row t) (rest : List (ω × α)) :
    IsOver level first (row ++ rest) (rest.foldl (fun t x => t.extend level x.1 x.2) t) := by
  induction rest generalizing t row with
  | nil =>
    rw [List.append_nil]
    exact h
  | cons x rest ih =>
    have hx : IsOver level first (row ++ [x]) (t.extend level x.1 x.2) :=
      ⟨(head_extend x.1 x.2).trans h.head, by rw [row_extend, h.row], h.binds.extend x.1 x.2⟩
    have := ih hx
    rwa [List.append_assoc] at this

theorem isOver_ofRow (level : ω → Nat) (first : α) (row : List (ω × α)) :
    IsOver level first row (ofRow level first row) :=
  (isOver_operand level first).foldl row

end OperatorTree

/-! ### Levels -/

section

variable {ω : Type} {symbol : ω → String} {levels : List (List ω)} {ops : List ω} {op : ω}

theorem levelOf_lt (h : op ∈ levels.flatten) : levelOf symbol levels op < levels.length := by
  obtain ⟨l, hl, hop⟩ := List.mem_flatten.mp h
  refine List.findIdx_lt_length_of_exists ⟨l, hl, ?_⟩
  exact List.any_eq_true.mpr ⟨op, hop, decide_eq_true rfl⟩

theorem levelOf_concat_of_mem (h : op ∈ levels.flatten) :
    levelOf symbol (levels ++ [ops]) op = levelOf symbol levels op := by
  have hlt : levelOf symbol levels op < levels.length := levelOf_lt h
  unfold levelOf at hlt ⊢
  rw [List.findIdx_append, if_pos hlt]

/-- An operator that the last level alone lists is of the last level. -/
theorem levelOf_concat_of_notMem (hd : DistinctSymbols symbol (levels.flatten ++ ops)) (hop : op ∈ ops)
    (hnot : op ∉ levels.flatten) : levelOf symbol (levels ++ [ops]) op = levels.length := by
  have hlevels : ∀ l ∈ levels, (l.any fun o => symbol o = symbol op) = false := by
    intro l hl
    refine List.any_eq_false.mpr fun o ho heq => hnot ?_
    have hol : o ∈ levels.flatten := List.mem_flatten.mpr ⟨l, hl, ho⟩
    rwa [← hd o (List.mem_append_left _ hol) op (List.mem_append_right _ hop) (of_decide_eq_true heq)]
  have hfirst : levels.findIdx (fun l => l.any fun o => symbol o = symbol op) = levels.length :=
    List.findIdx_eq_length_of_false hlevels
  have hlast : [ops].findIdx (fun l => l.any fun o => symbol o = symbol op) = 0 := by
    rw [List.findIdx_cons, List.any_eq_true.mpr ⟨op, hop, decide_eq_true rfl⟩]
    rfl
  rw [levelOf, List.findIdx_append, hfirst, if_neg (Nat.lt_irrefl _), hlast, Nat.zero_add]

theorem levelOf_concat_le (hd : DistinctSymbols symbol (levels.flatten ++ ops)) (h : op ∈ levels.flatten ++ ops) :
    levelOf symbol (levels ++ [ops]) op ≤ levels.length := by
  by_cases hop : op ∈ levels.flatten
  · rw [levelOf_concat_of_mem hop]
    exact Nat.le_of_lt (levelOf_lt hop)
  · exact Nat.le_of_eq (levelOf_concat_of_notMem hd ((List.mem_append.mp h).resolve_left hop) hop)

end

end Imp
