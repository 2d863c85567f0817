import Imp.Proofs.Parser.Chain
import Imp.Proofs.Parser.OperatorTrees
import Imp.Proofs.Parser.Positions

/-! # Levels of operators

A parser with levels of operators reads one row of operands and operators and gives the value of the one
tree over it. The levels are taken up one by one. A chain over a parser that reads the rows of some levels
reads the rows of one level more: the operands of the chain are the longest pieces of the row without an
operator that the new level alone lists, and such an operator is looser than all in its right operand. -/

namespace Imp

open OperatorTree

variable {ω α : Type} {ts : Array Token} {symbol : ω → String} {ops ops' : List ω} {operand : Nat → Answer α}
  {pos mid stop stop' : Nat} {op op' : ω} {row row' : List (ω × α)}

/-! ### Rows -/

theorem operatorAt_append :
    OperatorAt ts symbol (ops ++ ops') pos op ↔ OperatorAt ts symbol ops pos op ∨ OperatorAt ts symbol ops' pos op := by
  unfold OperatorAt
  rw [List.mem_append, or_and_right]

theorem OperatorAt.unique (hd : DistinctSymbols symbol ops) (h : OperatorAt ts symbol ops pos op)
    (h' : OperatorAt ts symbol ops pos op') : op = op' := by
  obtain ⟨hop, t, ht, htext, -⟩ := h
  obtain ⟨hop', t', ht', htext', -⟩ := h'
  rw [ht] at ht'
  cases ht'
  exact hd op hop op' hop' (htext.symm.trans htext')

theorem OperatorAt.lt_size (h : OperatorAt ts symbol ops pos op) : pos < ts.size := by
  obtain ⟨-, t, ht, -⟩ := h
  exact (Array.getElem?_eq_some_iff.mp ht).1

namespace RowAt

theorem mem (h : RowAt ts symbol ops operand pos row stop) : ∀ x ∈ row, x.1 ∈ ops := by
  induction h with
  | stop => exact nofun
  | more hop _ _ ih =>
    intro x hx
    rcases List.mem_cons.mp hx with rfl | hx
    · exact hop.1
    · exact ih x hx

theorem stops (h : RowAt ts symbol ops operand pos row stop) :
    ∀ op, OperatorAt ts symbol ops stop op → operand (stop + 1) = .failure := by
  induction h with
  | stop hstop => exact hstop
  | more _ _ _ ih => exact ih

theorem append (h : RowAt ts symbol ops operand pos row mid)
    (h' : RowAt ts symbol (ops ++ ops') operand mid row' stop) :
    RowAt ts symbol (ops ++ ops') operand pos (row ++ row') stop := by
  induction h with
  | stop => exact h'
  | more hop hv _ ih => exact .more (operatorAt_append.mpr (Or.inl hop)) hv (ih h')

/-- A row begins with a row of some of the operators only. -/
theorem split (hd : DistinctSymbols symbol (ops ++ ops')) (h : RowAt ts symbol (ops ++ ops') operand pos row stop) :
    ∃ row₀ mid row₁, row = row₀ ++ row₁ ∧ RowAt ts symbol ops operand pos row₀ mid ∧
      RowAt ts symbol (ops ++ ops') operand mid row₁ stop := by
  induction h with
  | @stop pos hstop =>
    have h₀ : RowAt ts symbol ops operand pos [] pos :=
      .stop fun op hop => hstop op (operatorAt_append.mpr (Or.inl hop))
    exact ⟨[], pos, [], rfl, h₀, .stop hstop⟩
  | @more pos next stop op v rest hop hv hrest ih =>
    by_cases hmem : op ∈ ops
    · obtain ⟨row₀, mid, row₁, rfl, h₀, h₁⟩ := ih
      exact ⟨(op, v) :: row₀, mid, row₁, rfl, .more ⟨hmem, hop.2⟩ hv h₀, h₁⟩
    · -- Another operator that stood here would be the same one.
      have h₀ : RowAt ts symbol ops operand pos [] pos := by
        refine .stop fun op' hop' => absurd hop'.1 ?_
        rwa [← hop.unique hd (operatorAt_append.mpr (Or.inl hop'))]
      exact ⟨[], pos, (op, v) :: rest, rfl, h₀, .more hop hv hrest⟩

theorem unique (hd : DistinctSymbols symbol ops) (h : RowAt ts symbol ops operand pos row stop)
    (h' : RowAt ts symbol ops operand pos row' stop') : row = row' ∧ stop = stop' := by
  induction h generalizing row' with
  | stop hstop =>
    cases h' with
    | stop => exact ⟨rfl, rfl⟩
    | more hop hv _ =>
      rw [hstop _ hop] at hv
      cases hv
  | more hop hv _ ih =>
    cases h' with
    | stop hstop =>
      rw [hstop _ hop] at hv
      cases hv
    | more hop' hv' hrest' =>
      cases hop.unique hd hop'
      rw [hv] at hv'
      cases hv'
      obtain ⟨rfl, rfl⟩ := ih hrest'
      exact ⟨rfl, rfl⟩

/-- Every operator takes a token, so a row comes to an end where the operands do. -/
theorem exists_of_finished (hf : Forward ts operand)
    (hfin : ∀ q op, pos ≤ q → OperatorAt ts symbol ops q op → operand (q + 1) ≠ .unfinished) :
    ∃ row stop, RowAt ts symbol ops operand pos row stop := by
  induction hn : ts.size - pos using Nat.strongRecOn generalizing pos with
  | ind n ih =>
    by_cases hmore : ∃ op, OperatorAt ts symbol ops pos op ∧ ∃ v next, operand (pos + 1) = .success v next
    · obtain ⟨op, hop, v, next, hv⟩ := hmore
      have hlt : pos < ts.size := hop.lt_size
      have hle : pos + 1 ≤ next := (hf hv).1
      obtain ⟨row, stop, hrow⟩ := ih (ts.size - next) (by omega) (fun q op hq => hfin q op (by omega)) rfl
      exact ⟨(op, v) :: row, stop, .more hop hv hrow⟩
    · refine ⟨[], pos, .stop fun op hop => ?_⟩
      exact Answer.eq_failure_of_finished (hfin pos op (Nat.le_refl pos) hop) fun v next hv =>
        hmore ⟨op, hop, v, next, hv⟩

end RowAt

namespace Parser

variable {ν : Type} {ty : ν → Type} {defs : Family ty} {join : ω → α → α → α} {levels : List (List ω)}

/-! ### Operators between operands -/

theorem answer_operator_eq_run : answer defs ts (map join (anyOperator symbol ops)) pos =
    (map join (anyOperator symbol ops)).runWith ts (runCall defs ts 0) 0 pos :=
  answer_eq_run (n := 0) (Answer.map_finished (anyOperator_finished pos))

theorem answer_operator_eq_success (hd : DistinctSymbols symbol ops) {f : α → α → α} {q : Nat} :
    answer defs ts (map join (anyOperator symbol ops)) pos = .success f q ↔
      ∃ op, OperatorAt ts symbol ops pos op ∧ f = join op ∧ q = pos + 1 := by
  rw [answer_operator_eq_run]
  constructor
  · intro h
    obtain ⟨t, ht, ⟨op, hop, hi, rfl⟩, rfl⟩ := (separates_operators hd join).sound h
    exact ⟨op, ⟨hop, t, ht, hi⟩, rfl, rfl⟩
  · rintro ⟨op, ⟨hop, t, ht, hi⟩, rfl, rfl⟩
    exact (separates_operators hd join).taken ht ⟨op, hop, hi, rfl⟩

theorem answer_operator_of_operatorAt (hd : DistinctSymbols symbol ops) (hop : OperatorAt ts symbol ops pos op) :
    answer defs ts (map join (anyOperator symbol ops)) pos = .success (join op) (pos + 1) :=
  (answer_operator_eq_success hd).mpr ⟨op, hop, rfl, rfl⟩

theorem answer_operator_eq_failure (hd : DistinctSymbols symbol ops) :
    answer defs ts (map join (anyOperator symbol ops)) pos = .failure ↔ ∀ op, ¬ OperatorAt ts symbol ops pos op := by
  constructor
  · intro h op hop
    rw [answer_operator_of_operatorAt hd hop] at h
    cases h
  · intro h
    refine Answer.eq_failure_of_finished ?_ fun f q hs => ?_
    · rw [answer_operator_eq_run]
      exact Answer.map_finished (anyOperator_finished pos)
    · obtain ⟨op, hop, -⟩ := (answer_operator_eq_success hd).mp hs
      exact h op hop

/-! ### One level more -/

/-- Where an operand stands the parser gives the value of the tree over it and the row behind it, and elsewhere
    it fails. -/
structure ReadsRows (defs : Family ty) (ts : Array Token) (symbol : ω → String) (join : ω → α → α → α)
    (levels : List (List ω)) (p reader : Parser ty α) : Prop where
  failure : ∀ pos, answer defs ts reader pos = .failure ↔ answer defs ts p pos = .failure
  success : ∀ pos v q, answer defs ts reader pos = .success v q ↔ ∃ first mid row t,
    answer defs ts p pos = .success first mid ∧ RowAt ts symbol levels.flatten (answer defs ts p) mid row q ∧
      IsOver (levelOf symbol levels) first row t ∧ v = t.value join

namespace ReadsRows

variable {p reader : Parser ty α} {v : α} {q : Nat}

theorem refl (defs : Family ty) (ts : Array Token) (symbol : ω → String) (join : ω → α → α → α) (p : Parser ty α) :
    ReadsRows defs ts symbol join [] p p where
  failure _ := Iff.rfl
  success pos v q := by
    constructor
    · intro h
      exact ⟨v, q, [], .operand v, h, .stop fun op hop => absurd hop.1 List.not_mem_nil, isOver_operand _ v, rfl⟩
    · rintro ⟨first, mid, row, t, hp, hrow, ht, rfl⟩
      cases hrow with
      | stop =>
        rw [ht.unique (isOver_operand _ first)]
        exact hp
      | more hop _ _ => exact absurd hop.1 List.not_mem_nil

section

variable (h : ReadsRows defs ts symbol join levels p reader) (hd : DistinctSymbols symbol (levels.flatten ++ ops))

include h hd

/-- What a chain joins is a row. Every operator that it takes is of the new level alone: the reader, which
    stops in front of it, would have taken any other. -/
theorem row_of_chain {left : α} {t : OperatorTree ω α}
    (hc : ChainAt (answer defs ts reader) (answer defs ts (map join (anyOperator symbol ops))) left pos v q)
    (hstop : ∀ op, OperatorAt ts symbol levels.flatten pos op → answer defs ts p (pos + 1) = .failure)
    (hleft : left = t.value join) (hb : t.Binds (levelOf symbol (levels ++ [ops])))
    (hmem : ∀ x ∈ t.row, x.1 ∈ levels.flatten ++ ops) :
    ∃ row t', RowAt ts symbol (levels.flatten ++ ops) (answer defs ts p) pos row q ∧
      IsOver (levelOf symbol (levels ++ [ops])) t.head (t.row ++ row) t' ∧ v = t'.value join := by
  have hd' : DistinctSymbols symbol ops := hd.mono fun _ => List.mem_append_right _
  induction hc generalizing t with
  | absent hs =>
    have hno := (answer_operator_eq_failure hd').mp hs
    refine ⟨[], t, .stop fun op hop => ?_, ⟨rfl, (List.append_nil _).symm, hb⟩, hleft⟩
    exact hstop op ((operatorAt_append.mp hop).resolve_right (hno op))
  | dangling hs ho =>
    obtain ⟨op, -, rfl, rfl⟩ := (answer_operator_eq_success hd').mp hs
    exact ⟨[], t, .stop fun _ _ => (h.failure _).mp ho, ⟨rfl, (List.append_nil _).symm, hb⟩, hleft⟩
  | @round left right v f pos mid next stop hs ho hc ih =>
    obtain ⟨op, hop, rfl, rfl⟩ := (answer_operator_eq_success hd').mp hs
    obtain ⟨first, mid, row, u, hp, hrow, hu, hright⟩ := (h.success _ _ _).mp ho
    have hnot : op ∉ levels.flatten := by
      intro hin
      rw [hstop op ⟨hin, hop.2⟩] at hp
      cases hp
    have hlevel : levelOf symbol (levels ++ [ops]) op = levels.length := levelOf_concat_of_notMem hd hop.1 hnot
    have hin : ∀ x ∈ u.row, x.1 ∈ levels.flatten := fun x hx => hrow.mem x (hu.row ▸ hx)
    have hnode : (node op t u).Binds (levelOf symbol (levels ++ [ops])) := by
      refine binds_node_iff.mpr ⟨fun x hx => ?_, fun x hx => ?_, hb, ?_⟩
      · rw [hlevel]
        exact levelOf_concat_le hd (hmem x hx)
      · rw [hlevel, levelOf_concat_of_mem (hin x hx)]
        exact levelOf_lt (hin x hx)
      · exact hu.binds.congr fun x hx => (levelOf_concat_of_mem (hin x hx)).symm
    have hmem' : ∀ x ∈ (node op t u).row, x.1 ∈ levels.flatten ++ ops := by
      intro x hx
      rcases List.mem_append.mp hx with hx | hx
      · exact hmem x hx
      · rcases List.mem_cons.mp hx with rfl | hx
        · exact List.mem_append_right _ hop.1
        · exact List.mem_append_left _ (hin x hx)
    obtain ⟨row', t', hrow', ht', hv⟩ := ih hrow.stops (by rw [hleft, hright]; rfl) hnode hmem'
    refine ⟨(op, first) :: (row ++ row'), t', ?_, ⟨ht'.head, ?_, ht'.binds⟩, hv⟩
    · exact .more (operatorAt_append.mpr (Or.inr hop)) hp (hrow.append hrow')
    · rw [ht'.row, OperatorTree.row, hu.head, hu.row, List.append_assoc, List.cons_append]

/-- A chain comes to the end of every row. -/
theorem chain_of_row {first : α} (hp : answer defs ts p pos = .success first mid)
    (hrow : RowAt ts symbol (levels.flatten ++ ops) (answer defs ts p) mid row q) :
    ∃ left mid', answer defs ts reader pos = .success left mid' ∧ ∀ left', ∃ v,
      ChainAt (answer defs ts reader) (answer defs ts (map join (anyOperator symbol ops))) left' mid' v q := by
  have hd' : DistinctSymbols symbol ops := hd.mono fun _ => List.mem_append_right _
  -- The reader takes the part of the row with operators of its own, which may be any part of it.
  induction hn : row.length using Nat.strongRecOn generalizing pos first mid row with
  | ind n ih =>
    obtain ⟨row₀, mid₀, row₁, rfl, h₀, h₁⟩ := hrow.split hd
    have hreader := (h.success _ _ _).mpr ⟨first, mid, row₀, _, hp, h₀, isOver_ofRow _ first row₀, rfl⟩
    refine ⟨_, mid₀, hreader, fun left' => ?_⟩
    cases h₁ with
    | stop hstop =>
      by_cases hop : ∃ op, OperatorAt ts symbol ops q op
      · obtain ⟨op, hop⟩ := hop
        have ho := (h.failure _).mpr (hstop op (operatorAt_append.mpr (Or.inr hop)))
        exact ⟨left', .dangling (answer_operator_of_operatorAt hd' hop) ho⟩
      · exact ⟨left', .absent ((answer_operator_eq_failure hd').mpr fun op hop' => hop ⟨op, hop'⟩)⟩
    | @more _ next _ op w rest hop hw hrest =>
      rcases operatorAt_append.mp hop with hop | hop
      · rw [h₀.stops op hop] at hw
        cases hw
      · have hlt : rest.length < n := by
          simp only [List.length_append, List.length_cons] at hn
          omega
        obtain ⟨right, mid', hright, hchain⟩ := ih rest.length hlt hw hrest rfl
        obtain ⟨v, hc⟩ := hchain (join op left' right)
        exact ⟨v, .round (answer_operator_of_operatorAt hd' hop) hright hc⟩

/-- A chain over a reader of rows reads rows with the operators of one level more. -/
theorem concat :
    ReadsRows defs ts symbol join (levels ++ [ops]) p (chainLeft reader (map join (anyOperator symbol ops))) := by
  have hflat : (levels ++ [ops]).flatten = levels.flatten ++ ops := by simp
  have hsound : ∀ pos v q, answer defs ts (chainLeft reader (map join (anyOperator symbol ops))) pos = .success v q →
      ∃ first mid row t, answer defs ts p pos = .success first mid ∧
        RowAt ts symbol (levels.flatten ++ ops) (answer defs ts p) mid row q ∧
          IsOver (levelOf symbol (levels ++ [ops])) first row t ∧ v = t.value join := by
    intro pos v q hr
    obtain ⟨left, mid', hreader, hc⟩ := answer_chainLeft_eq_success.mp hr
    obtain ⟨first, mid, row, t, hp, hrow, ht, hleft⟩ := (h.success _ _ _).mp hreader
    have hin : ∀ x ∈ t.row, x.1 ∈ levels.flatten := fun x hx => hrow.mem x (ht.row ▸ hx)
    have hb : t.Binds (levelOf symbol (levels ++ [ops])) :=
      ht.binds.congr fun x hx => (levelOf_concat_of_mem (hin x hx)).symm
    obtain ⟨row', t', hrow', ht', hv⟩ := h.row_of_chain hd hc hrow.stops hleft hb fun x hx =>
      List.mem_append_left _ (hin x hx)
    rw [ht.head, ht.row] at ht'
    exact ⟨first, mid, row ++ row', t', hp, hrow.append hrow', ht', hv⟩
  refine ⟨fun pos => answer_chainLeft_eq_failure.trans (h.failure pos), fun pos v q => ?_⟩
  rw [hflat]
  refine ⟨hsound pos v q, ?_⟩
  rintro ⟨first, mid, row, t, hp, hrow, ht, rfl⟩
  obtain ⟨left, mid', hreader, hchain⟩ := h.chain_of_row hd hp hrow
  obtain ⟨v, hc⟩ := hchain left
  have hr := answer_chainLeft_eq_success.mpr ⟨left, mid', hreader, hc⟩
  obtain ⟨first', mid', row', t', hp', hrow', ht', rfl⟩ := hsound pos v q hr
  rw [hp] at hp'
  cases hp'
  obtain ⟨rfl, -⟩ := hrow.unique hd hrow'
  rw [ht.unique ht']
  exact hr

end

theorem precedence {rest : List (List ω)} (h : ReadsRows defs ts symbol join levels p reader)
    (hd : DistinctSymbols symbol (levels ++ rest).flatten) :
    ReadsRows defs ts symbol join (levels ++ rest) p (Parser.precedence symbol join rest reader) := by
  induction rest generalizing levels reader with
  | nil =>
    rw [List.append_nil]
    exact h
  | cons ops rest ih =>
    have he : levels ++ ops :: rest = (levels ++ [ops]) ++ rest := by simp
    rw [he] at hd ⊢
    refine ih (h.concat (hd.mono fun op hop => ?_)) hd
    simp only [List.flatten_append, List.flatten_singleton, List.mem_append] at hop ⊢
    exact Or.inl hop

end ReadsRows

/-! ### All levels -/

/-- A parser with levels of operators takes one row of operands and operators, of whatever levels, as far as it
    goes, and gives the value of the one tree over it in which the operators bind as the first levels that list
    them say. It succeeds where an operand stands. -/
theorem answer_precedence (hd : DistinctSymbols symbol levels.flatten) (p : Parser ty α) (pos : Nat) :
    (answer defs ts (precedence symbol join levels p) pos = .failure ↔ answer defs ts p pos = .failure) ∧
    (∀ v q, answer defs ts (precedence symbol join levels p) pos = .success v q ↔ ∃ first mid row t,
      answer defs ts p pos = .success first mid ∧ RowAt ts symbol levels.flatten (answer defs ts p) mid row q ∧
        IsOver (levelOf symbol levels) first row t ∧ v = t.value join) ∧
    (∀ first row, ∃ t : OperatorTree ω α, IsOver (levelOf symbol levels) first row t ∧
      ∀ t', IsOver (levelOf symbol levels) first row t' → t' = t) ∧
    ((∀ q op, pos ≤ q → OperatorAt ts symbol levels.flatten q op → answer defs ts p (q + 1) ≠ .unfinished) →
      ((∃ v q, answer defs ts (precedence symbol join levels p) pos = .success v q) ↔
        ∃ v q, answer defs ts p pos = .success v q)) := by
  have h : ReadsRows defs ts symbol join levels p (precedence symbol join levels p) :=
    (ReadsRows.refl defs ts symbol join p).precedence hd
  refine ⟨h.failure pos, h.success pos, fun first row => ?_, fun hfin => ⟨?_, ?_⟩⟩
  · exact ⟨_, isOver_ofRow _ first row, fun _ ht' => ht'.unique (isOver_ofRow _ first row)⟩
  · rintro ⟨v, q, hv⟩
    obtain ⟨first, mid, -, -, hp, -⟩ := (h.success pos v q).mp hv
    exact ⟨first, mid, hp⟩
  · rintro ⟨first, mid, hp⟩
    have hle : pos ≤ mid := (answer_forward defs p hp).1
    obtain ⟨row, q, hrow⟩ := RowAt.exists_of_finished (answer_forward defs p) fun q op hq hop =>
      hfin q op (Nat.le_trans hle hq) hop
    exact ⟨_, q, (h.success pos _ q).mpr ⟨first, mid, row, _, hp, hrow, isOver_ofRow _ first row, rfl⟩⟩

theorem answer_precedence_subtraction :
    let levels : List (List Operator) := [[.mul, .div], [], [.add, .sub, .mul]]
    let join := fun (op : Operator) (l r : String) => "(" ++ l ++ op.symbol ++ r ++ ")"
    let ts : Array Token := #[⟨"1", .numeral, ⟨1, 1⟩⟩, ⟨"-", .reserved, ⟨1, 2⟩⟩, ⟨"2", .numeral, ⟨1, 3⟩⟩,
      ⟨"*", .reserved, ⟨1, 4⟩⟩, ⟨"3", .numeral, ⟨1, 5⟩⟩, ⟨"-", .reserved, ⟨1, 6⟩⟩, ⟨"4", .numeral, ⟨1, 7⟩⟩,
      ⟨"+", .reserved, ⟨1, 8⟩⟩]
    let defs : Family (fun _ : Empty => Unit) := nofun
    DistinctSymbols Operator.symbol levels.flatten ∧
      answer defs ts (precedence Operator.symbol join levels (.ofKind .numeral)) 0 = .success "((1-(2*3))-4)" 7 := by
  intro levels join ts defs
  have hd : DistinctSymbols Operator.symbol levels.flatten := by decide
  have hp : ∀ pos, answer defs ts (.ofKind .numeral) pos = take ts (fun t => t.kind = .numeral) pos := fun pos =>
    answer_eq_run (n := 0) (take_finished ts _ pos)
  have hrow : RowAt ts Operator.symbol levels.flatten (answer defs ts (.ofKind .numeral)) 1
      [(.sub, "2"), (.mul, "3"), (.sub, "4")] 7 :=
    .more ⟨by decide, _, rfl, rfl, rfl⟩ (hp 2) <| .more ⟨by decide, _, rfl, rfl, rfl⟩ (hp 4) <|
      .more ⟨by decide, _, rfl, rfl, rfl⟩ (hp 6) <| .stop fun _ _ => hp 8
  have ht : IsOver (levelOf Operator.symbol levels) "1" [(.sub, "2"), (.mul, "3"), (.sub, "4")]
      (.node .sub (.node .sub (.operand "1") (.node .mul (.operand "2") (.operand "3"))) (.operand "4")) :=
    ⟨rfl, rfl, by decide⟩
  exact ⟨hd, ((answer_precedence hd (.ofKind .numeral) 0).2.1 _ 7).mpr ⟨"1", 1, _, _, hp 0, hrow, ht, by decide⟩⟩

end Parser

end Imp
