import Imp.Proofs.Printing.Derivations
import Mathlib.Data.List.Chain

/-! # Minus signs

No source text writes a negative constant: a minus sign is only ever an operator between operands. So
wherever tokens write a tree, every minus sign stands behind the end of an operand, which is a numeral,
a name or a closed parenthesis. The minus sign of a constant stands behind the beginning of something
else, whatever the constant is part of. -/

namespace Imp

/-! ### Where a minus sign may stand -/

/-- An operand may end with this lexeme. -/
def EndsOperand (k : String × Kind) : Prop := k.2 ≠ .reserved ∨ k = (")", .reserved)

/-- The first lexeme is the end of an operand if the second is a minus sign. -/
def MinusFits (j k : String × Kind) : Prop := k = ("-", .reserved) → EndsOperand j

/-- Every minus sign stands behind the end of an operand. -/
structure Guarded (ks : List (String × Kind)) : Prop where
  chain : ks.IsChain MinusFits
  head : ∀ k ∈ ks.head?, k ≠ ("-", .reserved)

/-- Every minus sign stands behind the end of an operand, and another may follow. -/
structure GuardedOperand (ks : List (String × Kind)) : Prop extends Guarded ks where
  last : ∀ k ∈ ks.getLast?, EndsOperand k
  ne_nil : ks ≠ []

section

variable {ks us : List (String × Kind)} {k : String × Kind}

theorem Guarded.singleton (hk : k ≠ ("-", .reserved)) : Guarded [k] :=
  ⟨.singleton k, fun j hj => by cases hj; exact hk⟩

theorem Guarded.append (h : Guarded ks) (h' : Guarded us) : Guarded (ks ++ us) where
  chain := List.isChain_append.mpr ⟨h.chain, h'.chain, fun _ _ y hy hm => absurd hm (h'.head y hy)⟩
  head := by
    cases ks with
    | nil => exact h'.head
    | cons => exact h.head

theorem Guarded.cons (hk : k ≠ ("-", .reserved)) (h : Guarded ks) : Guarded (k :: ks) :=
  (Guarded.singleton hk).append h

/-- Behind an operand any lexeme may stand. -/
theorem GuardedOperand.join (h : GuardedOperand ks) (k : String × Kind) (h' : Guarded us) : Guarded (ks ++ k :: us) where
  chain := by
    refine List.isChain_append.mpr ⟨h.chain, List.isChain_cons.mpr ⟨fun y hy hm => absurd hm (h'.head y hy), h'.chain⟩, ?_⟩
    exact fun x hx _ _ _ => h.last x hx
  head := by
    obtain ⟨j, js, rfl⟩ := List.exists_cons_of_ne_nil h.ne_nil
    exact h.head

theorem GuardedOperand.join_operand (h : GuardedOperand ks) (k : String × Kind) (h' : GuardedOperand us) :
    GuardedOperand (ks ++ k :: us) where
  toGuarded := h.join k h'.toGuarded
  last := by
    obtain ⟨j, js, rfl⟩ := List.exists_cons_of_ne_nil h'.ne_nil
    simpa using h'.last
  ne_nil := by simp

theorem GuardedOperand.singleton (hk : k.2 ≠ .reserved) : GuardedOperand [k] where
  toGuarded := .singleton fun h => hk (by rw [h])
  last := fun j hj => by cases hj; exact Or.inl hk
  ne_nil := by simp

theorem GuardedOperand.enclosed (h : Guarded ks) : GuardedOperand (("(", .reserved) :: ks ++ [(")", .reserved)]) where
  toGuarded := (h.cons (by decide)).append (.singleton (by decide))
  last := fun j hj => by
    rw [List.getLast?_append, List.getLast?_singleton, Option.some_or] at hj
    cases hj
    exact Or.inr rfl
  ne_nil := by simp

end

/-! ### Tokens that write a tree -/

theorem Token.Is.key_eq {t : Token} {text : String} (h : t.Is text) : t.key = (text, .reserved) := Token.is_iff.mp h

theorem Expr.Derives.guarded {l : Expr.Layer} {ts : List Token} {e : Expr} (h : Expr.Derives l ts e) :
    GuardedOperand (ts.map Token.key) := by
  induction h with
  | const hk => exact .singleton (by simp [Token.key, hk])
  | var hk => exact .singleton (by simp [Token.key, hk])
  | group hl _ hr ih => simpa [hl.key_eq, hr.key_eq] using GuardedOperand.enclosed ih.toGuarded
  | term _ ih | single _ ih => exact ih
  | product _ _ _ _ iha ihb | sum _ _ _ _ iha ihb => simpa using iha.join_operand _ ihb

theorem Cond.Derives.guarded {l : Cond.Layer} {ts : List Token} {c : Cond} (h : Cond.Derives l ts c) :
    Guarded (ts.map Token.key) := by
  induction h with
  | not ht _ ih =>
    rw [List.map_cons, ht.key_eq]
    exact .cons (by decide) ih
  | compare ha ht hb => simpa using ha.guarded.join _ hb.guarded.toGuarded
  | group hl _ hr ih => simpa [hl.key_eq, hr.key_eq] using (GuardedOperand.enclosed ih).toGuarded
  | term _ ih | single _ ih => exact ih
  | and _ ht _ iha ihb | or _ ht _ iha ihb =>
    rw [List.map_append, List.map_cons, ht.key_eq]
    exact iha.append (.cons (by decide) ihb)

theorem Stmt.Derives.guarded {l : Stmt.Layer} {ts : List Token} {s : Stmt} (h : Stmt.Derives l ts s) :
    Guarded (ts.map Token.key) := by
  induction h with
  | assign hx ht he =>
    rw [List.map_cons, List.map_cons, ht.key_eq]
    exact .cons (by simp [Token.key, hx]) (.cons (by decide) he.guarded.toGuarded)
  | «when» hi hc ht _ hf ih =>
    simp only [List.map_append, List.map_cons, List.map_nil, hi.key_eq, ht.key_eq, hf.key_eq]
    exact ((hc.guarded.cons (by decide)).append (ih.cons (by decide))).append (.singleton (by decide))
  | branch hi hc ht _ hl _ hf ihs ihu =>
    simp only [List.map_append, List.map_cons, List.map_nil, hi.key_eq, ht.key_eq, hl.key_eq, hf.key_eq]
    exact (((hc.guarded.cons (by decide)).append (ihs.cons (by decide))).append (ihu.cons (by decide))).append
      (.singleton (by decide))
  | loop hw hc hd _ hf ih =>
    simp only [List.map_append, List.map_cons, List.map_nil, hw.key_eq, hd.key_eq, hf.key_eq]
    exact ((hc.guarded.cons (by decide)).append (ih.cons (by decide))).append (.singleton (by decide))
  | single _ ih => exact ih
  | seq _ ht _ iha ihb =>
    rw [List.map_append, List.map_cons, ht.key_eq]
    exact iha.append (.cons (by decide) ihb)

/-! ### Negative constants -/

/-- A minus sign stands behind a lexeme that ends no operand. -/
def HasStrayMinus (ks : List (String × Kind)) : Prop :=
  ∃ us j vs, ks = us ++ j :: ("-", .reserved) :: vs ∧ ¬ EndsOperand j

section

variable {ks : List (String × Kind)}

theorem HasStrayMinus.append_left (h : HasStrayMinus ks) (us : List (String × Kind)) : HasStrayMinus (ks ++ us) := by
  obtain ⟨vs, j, ws, rfl, hj⟩ := h
  exact ⟨vs, j, ws ++ us, by simp, hj⟩

theorem HasStrayMinus.append_right (h : HasStrayMinus ks) (us : List (String × Kind)) : HasStrayMinus (us ++ ks) := by
  obtain ⟨vs, j, ws, rfl, hj⟩ := h
  exact ⟨us ++ vs, j, ws, (List.append_assoc _ _ _).symm, hj⟩

theorem HasStrayMinus.cons (h : HasStrayMinus ks) (k : String × Kind) : HasStrayMinus (k :: ks) := h.append_right [k]

theorem Guarded.not_hasStrayMinus (h : Guarded ks) : ¬ HasStrayMinus ks := by
  rintro ⟨us, j, vs, rfl, hj⟩
  exact hj ((List.isChain_cons_cons.mp h.chain.right_of_append).1 rfl)

theorem not_endsOperand {text : String} (h : text ≠ ")") : ¬ EndsOperand (text, .reserved) := by
  rintro (hk | hk)
  · exact hk rfl
  · exact h (Prod.mk.inj hk).1

end

theorem negative_append {ns ms : List Int64} (h : ∃ n ∈ ns ++ ms, n < 0) : (∃ n ∈ ns, n < 0) ∨ ∃ n ∈ ms, n < 0 := by
  obtain ⟨n, hn, hneg⟩ := h
  exact (List.mem_append.mp hn).imp (fun hn => ⟨n, hn, hneg⟩) fun hn => ⟨n, hn, hneg⟩

/-- An expression with a negative constant has a stray minus sign behind any lexeme that ends no operand. -/
theorem Expr.hasStrayMinus {e : Expr} (h : ∃ n ∈ e.constants, n < 0) {p : String × Kind} (hp : ¬ EndsOperand p) :
    HasStrayMinus (p :: e.lexemes) := by
  induction e generalizing p with
  | const n =>
    obtain ⟨m, hm, hneg⟩ := h
    obtain rfl := List.mem_singleton.mp hm
    rw [lexemes, if_pos hneg]
    exact ⟨[], p, _, rfl, hp⟩
  | var x => simp [constants] at h
  | binary op l r ihl ihr =>
    rcases negative_append h with h | h
    · have hl := ihl h (p := ("(", .reserved)) (not_endsOperand (by decide))
      exact ((hl.append_left _).append_left _).cons p
    · have hr := ihr h (p := (op.symbol, .reserved)) (not_endsOperand (by cases op <;> decide))
      exact ((hr.append_right _).append_left _).cons p

theorem Cond.hasStrayMinus {c : Cond} (h : ∃ n ∈ c.constants, n < 0) {p : String × Kind} (hp : ¬ EndsOperand p) :
    HasStrayMinus (p :: c.lexemes) := by
  induction c generalizing p with
  | compare op l r =>
    rcases negative_append h with h | h
    · exact (Expr.hasStrayMinus h hp).append_left _
    · have hr := Expr.hasStrayMinus h (p := (op.symbol, .reserved)) (not_endsOperand (by cases op <;> decide))
      exact (hr.append_right _).cons p
  | and l r ihl ihr | or l r ihl ihr =>
    rcases negative_append h with h | h
    · have hl := ihl h (p := ("(", .reserved)) (not_endsOperand (by decide))
      exact ((hl.append_left _).append_left _).cons p
    · exact (((ihr h (not_endsOperand (by decide))).append_right _).append_left _).cons p
  | not c ih => exact (ih h (p := ("not", .reserved)) (not_endsOperand (by decide))).cons p

theorem Stmt.hasStrayMinus {s : Stmt} (h : ∃ n ∈ s.constants, n < 0) : HasStrayMinus s.lexemes := by
  induction s with
  | assign x e => exact (Expr.hasStrayMinus h (p := (":=", .reserved)) (not_endsOperand (by decide))).cons _
  | seq s t ihs iht =>
    rcases negative_append h with h | h
    · exact (ihs h).append_left _
    · exact ((iht h).cons _).append_right _
  | «when» c s ih | loop c s ih =>
    rcases negative_append h with h | h
    · exact ((Cond.hasStrayMinus h (not_endsOperand (by decide))).append_left _).append_left _
    · exact (((ih h).cons _).append_right _).append_left _
  | branch c s t ihs iht =>
    rcases negative_append h with h | h
    · rcases negative_append h with h | h
      · have hc := Cond.hasStrayMinus h (p := ("if", .reserved)) (not_endsOperand (by decide))
        exact ((hc.append_left _).append_left _).append_left _
      · exact ((((ihs h).cons _).append_right _).append_left _).append_left _
    · exact (((iht h).cons _).append_right _).append_left _

/-- The lexemes of a statement with a negative constant write nothing. -/
theorem Stmt.not_derives_of_lexemes {s : Stmt} (h : ∃ n ∈ s.constants, n < 0) {ts : List Token}
    (hts : ts.map Token.key = s.lexemes) (t : Stmt) : ¬ Stmt.Derives .block ts t := fun hd => by
  have hg := hd.guarded
  rw [hts] at hg
  exact hg.not_hasStrayMinus (hasStrayMinus h)

end Imp
