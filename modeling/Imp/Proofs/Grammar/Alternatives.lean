import Imp.Proofs.Grammar.Termination
import Imp.Proofs.Parser.Reordered

/-! # The grammar does not depend on the order of its alternatives

The first token tells the alternatives of a choice apart, but for one pair: a comparison and a condition in
parentheses may both begin with any number of open parentheses. Where a condition stands behind the first of them, an
expression that begins there ends in front of a comparison, so no closed parenthesis follows it and none begins one
token before. -/

namespace Imp

/-! ### Operators -/

namespace Parser

variable {ν : Type} {ty : ν → Type} {α ω : Type} {defs : Family ty} {ts : Array Token} {symbol : ω → String} {ops : List ω}

/-- Operators with different symbols exclude one another. -/
theorem exclusive_anyOperator (hinj : Function.Injective symbol) (hops : ops.Nodup) :
    Exclusive defs ts (anyOperator symbol ops : Parser ty ω) := by
  induction ops with
  | nil => trivial
  | cons op ops ih =>
    obtain ⟨hnot, hrest⟩ := List.nodup_cons.mp hops
    refine ⟨trivial, ih hrest, fun pos => ?_⟩
    have hfirst : (map (fun _ => op) (token (symbol op) .reserved) : Parser ty ω).run defs ts 0 pos ≠ .unfinished :=
      Answer.map_finished token_finished
    have hothers : (anyOperator symbol ops : Parser ty ω).run defs ts 0 pos ≠ .unfinished := anyOperator_finished pos
    show (answer defs ts (map (fun _ => op) (token (symbol op) .reserved)) pos).OneFails
      (answer defs ts (anyOperator symbol ops) pos)
    rw [answer_eq_run hfirst, answer_eq_run hothers]
    refine Answer.oneFails_of_finished hfirst hothers fun o i o' j ho ho' => ?_
    obtain ⟨x, hx, rfl⟩ := map_eq_success.mp ho
    obtain ⟨t, ht, hi, -⟩ := token_eq_success.mp hx
    obtain ⟨hmem, t', ht', hi', -⟩ := (anyOperator_eq_success (.of_injective hinj)).mp ho'
    rw [ht] at ht'
    cases ht'
    cases hinj (hi.1.symm.trans hi'.1)
    exact hnot hmem

theorem exclusive_precedence {join : ω → α → α → α} {levels : List (List ω)} {p : Parser ty α}
    (hinj : Function.Injective symbol) (hlevels : ∀ ops ∈ levels, ops.Nodup) (hp : Exclusive defs ts p) :
    Exclusive defs ts (precedence symbol join levels p) := by
  induction levels generalizing p with
  | nil => exact hp
  | cons ops levels ih =>
    have hops : Exclusive defs ts (anyOperator symbol ops : Parser ty ω) :=
      exclusive_anyOperator hinj (hlevels ops List.mem_cons_self)
    exact ih (fun ops' h => hlevels ops' (List.mem_cons_of_mem ops h)) ⟨hp, hops⟩

end Parser

namespace Grammar

open Imp.Parser

variable {ts : Array Token} {pos : Nat} {α : Type} {p q : Rule α}

/-! ### Runs of the grammar -/

theorem run_finished (hp : LoopsAdvance productions p) : run p ts pos ≠ .unfinished :=
  Parser.run_finished (fun n => (takesFirst_productions n).not_callsFirst) loopsAdvance_productions hp (by omega)

theorem answer_eq_run (hp : LoopsAdvance productions p) : answer productions ts p pos = run p ts pos :=
  Parser.answer_eq_run (run_finished hp)

/-- One of two parsers fails at the position, so no more than one of them succeeds. -/
def Excludes (ts : Array Token) (pos : Nat) (p q : Rule α) : Prop := (run p ts pos).OneFails (run q ts pos)

theorem Excludes.intro (hp : LoopsAdvance productions p) (hq : LoopsAdvance productions q)
    (h : ∀ v i w j, run p ts pos = .success v i → run q ts pos ≠ .success w j) : Excludes ts pos p q :=
  Answer.oneFails_of_finished (run_finished hp) (run_finished hq) h

/-! ### First tokens -/

/-- What succeeds begins with a token that `A` accepts. -/
def BeginsWith (ts : Array Token) (pos : Nat) (A : Token → Prop) (p : Rule α) : Prop :=
  ∀ {v : α} {q : Nat}, run p ts pos = .success v q → ∃ t, ts[pos]? = some t ∧ A t

/-- Parsers that begin with different tokens exclude each other. -/
theorem Excludes.of_beginsWith {A B : Token → Prop} (hp : LoopsAdvance productions p) (hq : LoopsAdvance productions q)
    (hA : BeginsWith ts pos A p) (hB : BeginsWith ts pos B q) (hAB : ∀ t, A t → ¬ B t) : Excludes ts pos p q :=
  .intro hp hq fun v i w j hv hw => by
    obtain ⟨t, ht, ha⟩ := hA hv
    obtain ⟨t', ht', hb⟩ := hB hw
    rw [ht] at ht'
    cases ht'
    exact hAB t ha hb

theorem beginsWith_numeral : BeginsWith ts pos (·.kind = .numeral) (map Expr.const numeral) := fun h => by
  obtain ⟨n, hn, -⟩ := Parser.map_eq_success.mp h
  obtain ⟨t, ht, hk, -⟩ := numeral_eq_success.mp hn
  exact ⟨t, ht, hk⟩

theorem beginsWith_name : BeginsWith ts pos (·.kind = .name) (map Expr.var (ofKind .name)) := fun h => by
  obtain ⟨x, hx, -⟩ := Parser.map_eq_success.mp h
  obtain ⟨t, ht, hk, -⟩ := Parser.ofKind_eq_success.mp hx
  exact ⟨t, ht, hk⟩

theorem beginsWith_group : BeginsWith ts pos (·.Is "(") (group p) := fun h => by
  obtain ⟨t, -, -, ht, hi, -⟩ := group_eq_success.mp h
  exact ⟨t, ht, hi⟩

theorem beginsWith_negation : BeginsWith ts pos (·.Is "not") negation := fun h => by
  obtain ⟨t, -, ht, hi, -⟩ := negation_eq_success.mp h
  exact ⟨t, ht, hi⟩

/-- A comparison begins with an expression, so no other reserved text than a parenthesis begins one. -/
theorem beginsWith_comparison : BeginsWith ts pos (fun t => ∀ text, t.Is text → text = "(") comparison := fun h => by
  obtain ⟨a, mid, _, _, _, ha, -⟩ := comparison_eq_success.mp h
  obtain ⟨seg, hst, -, hd⟩ := (run_reads ts .expr pos).sound ha
  obtain ⟨t, r, rfl, -⟩ := hd.head
  exact ⟨t, (Stands.cons_iff.mp hst).1, fun text => hd.head_not_reserved⟩

theorem beginsWith_assignment : BeginsWith ts pos (·.kind = .name) assignment := fun h => by
  obtain ⟨x, -, -, hx, hk, -⟩ := assignment_eq_success.mp h
  exact ⟨x, hx, hk⟩

theorem beginsWith_choice : BeginsWith ts pos (·.Is "if") choice := fun h => by
  obtain ⟨v, mid, _, _, _, hv, -⟩ := choice_eq_success.mp h
  obtain ⟨t, -, -, ht, hi, -⟩ := clause_eq_success.mp hv
  exact ⟨t, ht, hi⟩

theorem beginsWith_loop : BeginsWith ts pos (·.Is "while") loop := fun h => by
  obtain ⟨v, _, _, hv, -⟩ := loop_eq_success.mp h
  obtain ⟨t, -, -, ht, hi, -⟩ := clause_eq_success.mp hv
  exact ⟨t, ht, hi⟩

/-! ### Choices -/

theorem pairwise_of_three {r₁ r₂ r₃ : Rule α} (h₁₂ : Excludes ts pos r₁ r₂) (h₁₃ : Excludes ts pos r₁ r₃)
    (h₂₃ : Excludes ts pos r₂ r₃) : [r₁, r₂, r₃].Pairwise (Excludes ts pos) := by
  refine List.pairwise_cons.mpr ⟨?_, List.pairwise_pair.mpr h₂₃⟩
  exact List.forall_mem_cons.mpr ⟨h₁₂, List.forall_mem_singleton.mpr h₁₃⟩

/-- A numeral, a name and an expression in parentheses. -/
theorem expressions_exclude (ts : Array Token) (pos : Nat) :
    [map Expr.const numeral, map Expr.var (ofKind .name), group anyExpr].Pairwise (Excludes ts pos) := by
  have hgroup : LoopsAdvance productions (group anyExpr) := ⟨⟨trivial, trivial⟩, trivial⟩
  refine pairwise_of_three (.of_beginsWith trivial trivial beginsWith_numeral beginsWith_name fun t hk hk' => ?_)
    (.of_beginsWith trivial hgroup beginsWith_numeral beginsWith_group fun t hk hi => ?_)
    (.of_beginsWith trivial hgroup beginsWith_name beginsWith_group fun t hk hi => ?_)
  · cases hk.symm.trans hk'
  · cases hk.symm.trans hi.2
  · cases hk.symm.trans hi.2

theorem Excludes.comparison_group : Excludes ts pos comparison (group anyCond) :=
  .intro loopsAdvance_condTerm.1.2 loopsAdvance_condTerm.2 fun v i w j hv hw => by
    -- Both may begin with the parenthesis, but none that stands in front of a condition begins a comparison.
    obtain ⟨l, mid, -, hl, hli, hcond, -⟩ := group_eq_success.mp hw
    have hc := callsRead ts pos
    obtain ⟨seg, hst, -, hd⟩ := (hc.next .cond hl).sound hcond
    have hfails : run comparison ts pos = .failure := comparison_eq_failure hc (by omega) hl hli hd hst
    cases hfails.symm.trans hv

/-- A negation, a comparison and a condition in parentheses. -/
theorem conditions_exclude (ts : Array Token) (pos : Nat) :
    [negation, comparison, group anyCond].Pairwise (Excludes ts pos) := by
  obtain ⟨⟨hnegation, hcomparison⟩, hgroup⟩ := loopsAdvance_condTerm
  refine pairwise_of_three
    (.of_beginsWith hnegation hcomparison beginsWith_negation beginsWith_comparison fun t hi hexpr => ?_)
    (.of_beginsWith hnegation hgroup beginsWith_negation beginsWith_group fun t hi hi' => ?_) .comparison_group
  · exact absurd (hexpr "not" hi) (by decide)
  · exact absurd (hi.1.symm.trans hi'.1) (by decide)

/-- An assignment, a choice and a loop. -/
theorem statements_exclude (ts : Array Token) (pos : Nat) : [assignment, choice, loop].Pairwise (Excludes ts pos) := by
  obtain ⟨⟨hassignment, hchoice⟩, hloop⟩ := loopsAdvance_statement
  refine pairwise_of_three
    (.of_beginsWith hassignment hchoice beginsWith_assignment beginsWith_choice fun t hk hi => ?_)
    (.of_beginsWith hassignment hloop beginsWith_assignment beginsWith_loop fun t hk hi => ?_)
    (.of_beginsWith hchoice hloop beginsWith_choice beginsWith_loop fun t hi hi' => ?_)
  · cases hk.symm.trans hi.2
  · cases hk.symm.trans hi.2
  · exact absurd (hi.1.symm.trans hi'.1) (by decide)

/-! ### Productions with exclusive alternatives -/

theorem exclusive_of_pairwise (hl : LoopsAdvance productions p) (ha : ∀ a ∈ p.alternatives, Exclusive productions ts a)
    (h : ∀ pos, p.alternatives.Pairwise (Excludes ts pos)) : Exclusive productions ts p := by
  have hla := (loopsAdvance_iff_alternatives p).mp hl
  refine (exclusive_iff p).mpr ⟨ha, fun pos => List.pairwise_map.mpr ((h pos).imp_of_mem fun ha hb hab => ?_)⟩
  rw [answer_eq_run (hla _ ha), answer_eq_run (hla _ hb)]
  exact hab

theorem exclusive_group (hp : Exclusive productions ts p) : Exclusive productions ts (group p) := ⟨⟨trivial, hp⟩, trivial⟩

theorem exclusive_exprTerm : Exclusive productions ts exprTerm := by
  refine exclusive_of_pairwise loopsAdvance_exprTerm ?_ (expressions_exclude ts)
  refine List.forall_mem_cons.mpr ⟨trivial, List.forall_mem_cons.mpr ⟨trivial, List.forall_mem_singleton.mpr ?_⟩⟩
  exact exclusive_group trivial

theorem exclusive_expr : Exclusive productions ts expr :=
  exclusive_precedence Operator.symbol_injective (by decide) exclusive_exprTerm

theorem exclusive_condTerm : Exclusive productions ts condTerm := by
  refine exclusive_of_pairwise loopsAdvance_condTerm ?_ (conditions_exclude ts)
  have hoperator : Exclusive productions ts (anyOperator Comparison.symbol Comparison.all) :=
    exclusive_anyOperator Comparison.symbol_injective (by decide)
  have hcomparison : Exclusive productions ts comparison := ⟨⟨exclusive_expr, hoperator⟩, exclusive_expr⟩
  refine List.forall_mem_cons.mpr ⟨⟨trivial, trivial⟩, List.forall_mem_cons.mpr ⟨hcomparison, ?_⟩⟩
  exact List.forall_mem_singleton.mpr (exclusive_group trivial)

theorem exclusive_cond : Exclusive productions ts cond :=
  exclusive_precedence Connective.symbol_injective (by decide) exclusive_condTerm

theorem exclusive_statement : Exclusive productions ts statement := by
  refine exclusive_of_pairwise loopsAdvance_statement ?_ (statements_exclude ts)
  have hhead (first : String) : Exclusive productions ts (.seq (keyword first) cond) := ⟨trivial, exclusive_cond⟩
  have hassignment : Exclusive productions ts assignment := ⟨⟨trivial, trivial⟩, exclusive_expr⟩
  have hchoice : Exclusive productions ts choice := ⟨⟨⟨⟨hhead "if", trivial⟩, trivial⟩, trivial, trivial⟩, trivial⟩
  have hloop : Exclusive productions ts loop := ⟨⟨⟨hhead "while", trivial⟩, trivial⟩, trivial⟩
  exact List.forall_mem_cons.mpr ⟨hassignment, List.forall_mem_cons.mpr ⟨hchoice, List.forall_mem_singleton.mpr hloop⟩⟩

theorem exclusive_productions (n : Production) : Exclusive productions ts (productions n) := by
  cases n with
  | expr => exact exclusive_expr
  | cond => exact exclusive_cond
  | condTerm => exact exclusive_condTerm
  | block => exact ⟨exclusive_statement, trivial⟩

/-! ### Reordered grammars -/

/-- Every production stands within a program. -/
theorem partOf_program (n : Production) : PartOf (productions n) program := by
  cases n with
  | expr => exact .phrase (.operand (.left (.left (.map (.second .whole)))))
  | cond => exact .phrase (.operand (.right (.map (.first (.first (.first (.second .whole)))))))
  | condTerm =>
    exact .phrase (.operand (.right (.map (.first (.first (.first (.second (.operand (.operand .whole)))))))))
  | block => exact .phrase .whole

/-- At no position of any tokens do two alternatives of a choice in the grammar succeed. So the parsers of the grammar
    do not depend on their order: they come to an end, and give the same when the alternatives in them and in the
    productions are reordered, each choice in its own way. -/
theorem alternatives_unordered (ts : Array Token) (pos : Nat) :
    [map Expr.const numeral, map Expr.var (ofKind .name), group anyExpr].Pairwise (Excludes ts pos) ∧
    [negation, comparison, group anyCond].Pairwise (Excludes ts pos) ∧
    [assignment, choice, loop].Pairwise (Excludes ts pos) ∧
    ∀ {α : Type} (p : Rule α), PartOf p program → run p ts pos ≠ .unfinished ∧
      ∀ (defs : Family Production.Value) (p' : Rule α), (∀ n, Reordered (productions n) (defs n)) → Reordered p p' →
        ∀ fuel, ts.size - pos + 2 ≤ fuel → p'.run defs ts fuel pos = run p ts pos := by
  refine ⟨expressions_exclude ts pos, conditions_exclude ts pos, statements_exclude ts pos, fun p hpart => ?_⟩
  have hl : LoopsAdvance productions p := hpart.loopsAdvance (loopsAdvance_productions .block)
  have hx : Exclusive productions ts p := hpart.exclusive (exclusive_productions .block)
  have hfinished : run p ts pos ≠ .unfinished := run_finished hl
  refine ⟨hfinished, fun defs p' hd hp fuel hf => ?_⟩
  calc p'.run defs ts fuel pos
    _ = p.run productions ts fuel pos :=
      run_reordered hd (fun n => (takesFirst_productions n).not_callsFirst) loopsAdvance_productions exclusive_productions
        hp hl hx (by omega)
    _ = run p ts pos := ((run_upto hf p pos).eq hfinished).symm

/-- The productions, where a condition in parentheses is tried first. -/
def groupsFirst : Family Production.Value
  | .expr => expr
  | .cond => cond
  | .condTerm => alt (group anyCond) (alt comparison negation)
  | .block => block

theorem alternatives_unordered_parentheses :
    let ts : Array Token := #[⟨"(", .reserved, ⟨1, 1⟩⟩, ⟨"(", .reserved, ⟨1, 2⟩⟩, ⟨"x", .name, ⟨1, 3⟩⟩,
      ⟨")", .reserved, ⟨1, 4⟩⟩, ⟨"<", .reserved, ⟨1, 5⟩⟩, ⟨"1", .numeral, ⟨1, 6⟩⟩, ⟨")", .reserved, ⟨1, 7⟩⟩]
    PartOf condTerm program ∧ (∀ n, Reordered (productions n) (groupsFirst n)) ∧ ts.size - 0 + 2 ≤ 9 ∧
      (groupsFirst .condTerm).run groupsFirst ts 9 0 = .success (.compare .lt (.var "x") (.const 1)) 7 := by
  intro ts
  have hd (n : Production) : Reordered (productions n) (groupsFirst n) := by
    cases n with
    | condTerm => exact .choice (List.reverse_perm [group anyCond, comparison, negation])
    | expr | cond | block => exact .refl _
  have hrun : run condTerm ts 0 = .success (.compare .lt (.var "x") (.const 1)) 7 := by decide +kernel
  have hfuel : ts.size - 0 + 2 ≤ 9 := by decide
  have hpart : PartOf condTerm program := partOf_program .condTerm
  have hsame := ((alternatives_unordered ts 0).2.2.2 condTerm hpart).2 groupsFirst _ hd (hd .condTerm) 9 hfuel
  exact ⟨hpart, hd, hfuel, hsame.trans hrun⟩

end Grammar

end Imp
