import Imp.Proofs.Grammar.Expressions

/-! # Conditions are read

A condition without a connective begins with `not`, with an expression, or with an open parenthesis,
and a parenthesis may also begin an expression. The comparison is tried first, and reads the whole
group as an expression if it can. It never can where the group holds a condition: an expression that
begins where a condition begins ends in front of a comparison or is no expression, so no closed
parenthesis follows it. -/

namespace Imp

theorem Comparison.symbol_injective : Function.Injective Comparison.symbol := by
  intro a b h
  cases a <;> cases b <;> first | rfl | exact absurd h (by decide)

theorem Connective.symbol_injective : Function.Injective Connective.symbol := by
  intro a b h
  cases a <;> cases b <;> first | rfl | exact absurd h (by decide)

theorem Comparison.not_isOperator {t : Token} {op : Comparison} (h : t.Is op.symbol) : ¬ t.IsOperator := by
  rintro ⟨o, ho⟩
  exact absurd (h.1.symm.trans ho.1) (by cases op <;> cases o <;> decide)

theorem Connective.not_isOperator {t : Token} {op : Connective} (h : t.Is op.symbol) : ¬ t.IsOperator := by
  rintro ⟨o, ho⟩
  exact absurd (h.1.symm.trans ho.1) (by cases op <;> cases o <;> decide)

namespace Cond

/-! ### Layers as chains -/

theorem derives_conjunction_iff {seg : List Token} {c : Cond} : Derives .conjunction seg c ↔
    Chained (Derives .term) (JoinsWith Connective.symbol join [.and]) seg c := by
  constructor
  · intro h
    generalize hl : Layer.conjunction = l at h
    induction h with
    | term h => exact .single h
    | and _ ht hb iha _ => exact .more (iha hl) ⟨.and, by simp, ht, rfl⟩ hb
    | _ => cases hl
  · intro h
    induction h with
    | single h => exact .term h
    | more _ hS hd ih =>
      obtain ⟨op, hop, ht, rfl⟩ := hS
      obtain rfl := List.mem_singleton.mp hop
      exact .and ih ht hd

theorem derives_disjunction_iff {seg : List Token} {c : Cond} : Derives .disjunction seg c ↔
    Chained (Derives .conjunction) (JoinsWith Connective.symbol join [.or]) seg c := by
  constructor
  · intro h
    generalize hl : Layer.disjunction = l at h
    induction h with
    | single h => exact .single h
    | or _ ht hb iha _ => exact .more (iha hl) ⟨.or, by simp, ht, rfl⟩ hb
    | _ => cases hl
  · intro h
    induction h with
    | single h => exact .single h
    | more _ hS hd ih =>
      obtain ⟨op, hop, ht, rfl⟩ := hS
      obtain rfl := List.mem_singleton.mp hop
      exact .or ih ht hd

/-! ### Expressions where conditions begin -/

section

variable {ts : Array Token} {f : Nat → Answer Expr} {pos : Nat}

/-- Where an expression that begins behind an open parenthesis ends in front of a comparison, no
    expression begins with the parenthesis. -/
theorem no_expr_of_group {l : Token} (hf : ∀ q, pos ≤ q → Reads ts (Expr.Derives .sum) Token.IsOperator f q)
    (hl : ts[pos]? = some l) (hli : l.Is "(")
    (hstop : ∀ e q, f (pos + 1) = .success e q → ∃ t op, ts[q]? = some t ∧ t.Is (Comparison.symbol op)) (e : Expr)
    (q : Nat) : f pos ≠ .success e q := by
  intro h
  obtain ⟨seg, hst, -, hd⟩ := (hf pos (Nat.le_refl _)).sound h
  obtain ⟨t, r, rfl, hk⟩ := hd.head
  obtain ⟨ht, hrest⟩ := Stands.cons_iff.mp hst
  rw [hl] at ht
  cases ht
  rcases hk with hk | hk | ⟨-, us, e', r', ws, hd', hr, rfl⟩
  · rw [hli.2] at hk
    cases hk
  · rw [hli.2] at hk
    cases hk
  · obtain ⟨hus, hr', -⟩ := Stands.append_cons_iff.mp hrest
    -- The expression within the parentheses is taken as it stands, up to the closed one.
    have hrun : f (pos + 1) = .success e' (pos + 1 + us.length) :=
      (hf (pos + 1) (by omega)).exact hd' hus (Production.not_goesOn_at hr' hr (by decide) .expr)
    obtain ⟨t, op, ht, hop⟩ := hstop _ _ hrun
    rw [hr'] at ht
    cases ht
    exact absurd (hr.1.symm.trans hop.1) (by cases op <;> decide)

/-- An expression that begins where a condition begins ends in front of a comparison. -/
theorem Derives.expr_stops {l : Layer} {seg : List Token} {c : Cond} (h : Derives l seg c)
    (hf : ∀ q, pos ≤ q → Reads ts (Expr.Derives .sum) Token.IsOperator f q) (hst : Stands ts pos seg) {e : Expr} {q : Nat}
    (hrun : f pos = .success e q) : ∃ t op, ts[q]? = some t ∧ t.Is (Comparison.symbol op) := by
  induction h generalizing pos e q with
  | not ht _ _ =>
    obtain ⟨seg', hst', -, hd⟩ := (hf pos (Nat.le_refl _)).sound hrun
    obtain ⟨t', r, rfl, -⟩ := hd.head
    have heq := (Stands.cons_iff.mp hst).1.symm.trans (Stands.cons_iff.mp hst').1
    cases heq
    exact absurd (hd.head_not_reserved ht) (by decide)
  | @compare us ws t op a b ha ht _ =>
    obtain ⟨hus, ht', -⟩ := Stands.append_cons_iff.mp hst
    have hexact := (hf pos (Nat.le_refl _)).exact ha hus fun t' h' => by
      rw [ht'] at h'
      cases h'
      exact Comparison.not_isOperator ht
    rw [hrun] at hexact
    cases hexact
    exact ⟨t, op, ht', ht⟩
  | @group l r us c hl _ _ ih =>
    obtain ⟨htl, hus, -⟩ := Stands.enclosed_iff.mp hst
    refine absurd hrun (no_expr_of_group hf htl hl (fun e' q' h' => ?_) e q)
    exact ih (fun q hq => hf q (by omega)) hus h'
  | term _ ih => exact ih hf hst hrun
  | single _ ih => exact ih hf hst hrun
  | and _ _ _ iha _ => exact iha hf (Stands.append_iff.mp hst).1 hrun
  | or _ _ _ iha _ => exact iha hf (Stands.append_iff.mp hst).1 hrun

end

end Cond

namespace Grammar

variable {ts : Array Token} {called : (n : Production) → Nat → Answer n.Value} {fuel pos : Nat}

/-! ### Conditions without connectives -/

theorem negation_eq_success {c : Cond} {q : Nat} : negation.runWith ts called fuel pos = .success c q ↔
    ∃ t c', ts[pos]? = some t ∧ t.Is "not" ∧ called .condTerm (pos + 1) = .success c' q ∧ c = .not c' := by
  simp only [negation, Parser.map_eq_success, Parser.seq_eq_success, keyword_eq_success]
  constructor
  · rintro ⟨⟨_, c'⟩, ⟨mid, ⟨t, ht, hi, -, rfl⟩, hc⟩, rfl⟩
    exact ⟨t, c', ht, hi, hc, rfl⟩
  · rintro ⟨t, c', ht, hi, hc, rfl⟩
    exact ⟨(t.text, c'), ⟨pos + 1, ⟨t, ht, hi, rfl, rfl⟩, hc⟩, rfl⟩

theorem negation_finished (hc : CallsRead ts called pos) : negation.runWith ts called fuel pos ≠ .unfinished := by
  refine Answer.map_finished (Parser.seq_finished Parser.token_finished fun x mid h => ?_)
  obtain ⟨t, ht, -, -, rfl⟩ := keyword_eq_success.mp h
  exact (hc.next .condTerm ht).finished

theorem negation_eq_failure (hc : CallsRead ts called pos) {t : Token} (ht : ts[pos]? = some t) (hn : ¬ t.Is "not") :
    negation.runWith ts called fuel pos = .failure :=
  Answer.eq_failure_of_finished (negation_finished hc) fun c q h => by
    obtain ⟨t', _, ht', hi, -⟩ := negation_eq_success.mp h
    rw [ht] at ht'
    cases ht'
    exact hn hi

theorem comparison_eq_success {c : Cond} {q : Nat} : comparison.runWith ts called fuel pos = .success c q ↔
    ∃ a mid op t b, expr.runWith ts called fuel pos = .success a mid ∧ ts[mid]? = some t ∧ t.Is (Comparison.symbol op) ∧
      expr.runWith ts called fuel (mid + 1) = .success b q ∧ c = .compare op a b := by
  simp only [comparison, Parser.map_eq_success, Parser.seq_eq_success,
    anyOperator_eq_success (.of_injective Comparison.symbol_injective)]
  constructor
  · rintro ⟨⟨⟨a, op⟩, b⟩, ⟨_, ⟨mid, ha, -, t, ht, hi, rfl⟩, hb⟩, rfl⟩
    exact ⟨a, mid, op, t, b, ha, ht, hi, hb, rfl⟩
  · rintro ⟨a, mid, op, t, b, ha, ht, hi, hb, rfl⟩
    have hop : op ∈ Comparison.all := by cases op <;> decide
    exact ⟨((a, op), b), ⟨mid + 1, ⟨mid, ha, hop, t, ht, hi, rfl⟩, hb⟩, rfl⟩

theorem comparison_finished (hc : CallsRead ts called pos) (hf : ts.size < pos + fuel) :
    comparison.runWith ts called fuel pos ≠ .unfinished := by
  refine Answer.map_finished (Parser.seq_finished (Parser.seq_finished (expr_reads hc hf).finished fun _ _ _ =>
    anyOperator_finished _) fun v mid h => ?_)
  obtain ⟨mid', ha, hop⟩ := Parser.seq_eq_success.mp h
  obtain ⟨seg, -, rfl, -⟩ := (expr_reads hc hf).sound ha
  obtain ⟨-, t, -, -, rfl⟩ := (anyOperator_eq_success (.of_injective Comparison.symbol_injective)).mp hop
  exact (expr_reads_from hc hf _ (by omega)).finished

theorem condTerm_eq_success {c : Cond} {q : Nat} : condTerm.runWith ts called fuel pos = .success c q ↔
    (negation.runWith ts called fuel pos = .success c q ∨
      negation.runWith ts called fuel pos = .failure ∧ comparison.runWith ts called fuel pos = .success c q) ∨
    (Parser.alt negation comparison).runWith ts called fuel pos = .failure ∧
      (group anyCond).runWith ts called fuel pos = .success c q := by
  rw [condTerm, Parser.alt_eq_success, Parser.alt_eq_success]

theorem condTerm_sound (hc : CallsRead ts called pos) (hf : ts.size < pos + fuel) {c : Cond} {q : Nat}
    (h : condTerm.runWith ts called fuel pos = .success c q) :
    ∃ seg, Stands ts pos seg ∧ q = pos + seg.length ∧ Cond.Derives .term seg c := by
  rcases condTerm_eq_success.mp h with (h | ⟨-, h⟩) | ⟨-, h⟩
  · obtain ⟨t, c', ht, hi, hcall, rfl⟩ := negation_eq_success.mp h
    obtain ⟨seg, hst, rfl, hd⟩ := (hc.next .condTerm ht).sound hcall
    exact ⟨t :: seg, Stands.cons_iff.mpr ⟨ht, hst⟩, by rw [List.length_cons]; omega, .not hi hd⟩
  · obtain ⟨a, mid, op, t, b, ha, ht, hi, hb, rfl⟩ := comparison_eq_success.mp h
    obtain ⟨seg, hst, rfl, hda⟩ := (expr_reads hc hf).sound ha
    obtain ⟨us, hus, rfl, hdb⟩ := (expr_reads_from hc hf _ (by omega)).sound hb
    exact ⟨seg ++ t :: us, Stands.append_cons_iff.mpr ⟨hst, ht, hus⟩, (length_append_cons pos).symm,
      .compare hda hi hdb⟩
  · obtain ⟨l, mid, r, hl, hli, hp, hr, hri, rfl⟩ := group_eq_success.mp h
    obtain ⟨seg, hst, rfl, hd⟩ := (hc.next .cond hl).sound hp
    exact ⟨l :: seg ++ [r], Stands.enclosed_iff.mpr ⟨hl, hst, hr⟩, (length_enclosed pos).symm, .group hli hd hri⟩

/-- Two expressions with a comparison between them: the first is taken as it stands, and the whole ends
    where the second one ends. -/
theorem condTerm_of_comparison (hc : CallsRead ts called pos) (hf : ts.size < pos + fuel) {seg : List Token} {t : Token}
    {op : Comparison} {a b : Expr} {q : Nat} (ha : Expr.Derives .sum seg a) (hst : Stands ts pos seg)
    (ht : ts[pos + seg.length]? = some t) (hi : t.Is op.symbol)
    (hb : expr.runWith ts called fuel (pos + seg.length + 1) = .success b q) :
    condTerm.runWith ts called fuel pos = .success (.compare op a b) q := by
  have hrun : expr.runWith ts called fuel pos = .success a (pos + seg.length) :=
    (expr_reads hc hf).exact ha hst fun t' ht' => by
      rw [ht] at ht'
      cases ht'
      exact Comparison.not_isOperator hi
  obtain ⟨t', r, rfl, -⟩ := ha.head
  have ht' := (Stands.cons_iff.mp hst).1
  have hn : ¬ t'.Is "not" := fun h => absurd (ha.head_not_reserved h) (by decide)
  exact condTerm_eq_success.mpr (Or.inl (Or.inr ⟨negation_eq_failure hc ht' hn,
    comparison_eq_success.mpr ⟨a, _, op, t, b, hrun, ht, hi, hb, rfl⟩⟩))

/-- Where a condition stands behind an open parenthesis, no comparison begins with the parenthesis. -/
theorem comparison_eq_failure (hc : CallsRead ts called pos) (hf : ts.size < pos + fuel) {layer : Cond.Layer}
    {seg : List Token} {l : Token} {c : Cond} (hl : ts[pos]? = some l) (hli : l.Is "(") (hd : Cond.Derives layer seg c)
    (hst : Stands ts (pos + 1) seg) : comparison.runWith ts called fuel pos = .failure :=
  Answer.eq_failure_of_finished (comparison_finished hc hf) fun c' q h => by
    have hexpr := expr_reads_from hc hf
    obtain ⟨a, mid, _, _, _, ha, -⟩ := comparison_eq_success.mp h
    refine Cond.no_expr_of_group hexpr hl hli (fun e q' he => ?_) a mid ha
    exact hd.expr_stops (fun q hq => hexpr q (by omega)) hst he

/-- A condition in parentheses is taken as it stands, whatever follows. -/
theorem condTerm_of_group (hc : CallsRead ts called pos) (hf : ts.size < pos + fuel) {seg : List Token} {l r : Token}
    {c : Cond} (hl : ts[pos]? = some l) (hli : l.Is "(") (hd : Cond.Derives .disjunction seg c)
    (hst : Stands ts (pos + 1) seg) (hr : ts[pos + 1 + seg.length]? = some r) (hri : r.Is ")") :
    condTerm.runWith ts called fuel pos = .success c (pos + 1 + seg.length + 1) := by
  have hn : ¬ l.Is "not" := fun h => absurd (hli.1.symm.trans h.1) (by decide)
  have hcomp := comparison_eq_failure hc hf hl hli hd hst
  have hcond : called .cond (pos + 1) = .success c (pos + 1 + seg.length) :=
    (hc.next .cond hl).exact hd hst (Production.not_goesOn_at hr hri (by decide) .cond)
  refine condTerm_eq_success.mpr (Or.inr ⟨?_, group_eq_success.mpr ⟨l, _, r, hl, hli, hcond, hr, hri, rfl⟩⟩)
  exact (Answer.orElse_of_failure (negation_eq_failure hc hl hn)).trans hcomp

theorem condTerm_reads (hc : CallsRead ts called pos) (hf : ts.size < pos + fuel) :
    Reads ts (Cond.Derives .term) Token.IsOperator (condTerm.runWith ts called fuel) pos where
  finished := by
    refine Answer.orElse_finished (Answer.orElse_finished (negation_finished hc) (comparison_finished hc hf)) ?_
    exact group_finished fun l hl => (hc.next .cond hl).finished
  sound := condTerm_sound hc hf
  exact := by
    intro seg c hd hst hn
    cases hd with
    | @not t us c ht hd =>
      obtain ⟨htok, hus⟩ := Stands.cons_iff.mp hst
      have hlen : pos + (t :: us).length = pos + 1 + us.length := by rw [List.length_cons]; omega
      rw [hlen] at hn ⊢
      exact condTerm_eq_success.mpr (Or.inl (Or.inl (negation_eq_success.mpr
        ⟨t, c, htok, ht, (hc.next .condTerm htok).exact hd hus hn, rfl⟩)))
    | @compare us ws t op a b ha ht hb =>
      obtain ⟨hus, htok, hws⟩ := Stands.append_cons_iff.mp hst
      rw [length_append_cons] at hn ⊢
      refine condTerm_of_comparison hc hf ha hus htok ht ?_
      exact (expr_reads_from hc hf _ (by omega)).exact hb hws hn
    | @group l r us c hl hd hr =>
      obtain ⟨htl, hus, htr⟩ := Stands.enclosed_iff.mp hst
      rw [length_enclosed]
      exact condTerm_of_group hc hf htl hl hd hus htr hr
  longest := by
    intro seg c hd hst
    cases hd with
    | @not t us c ht hd =>
      obtain ⟨htok, hus⟩ := Stands.cons_iff.mp hst
      have hlen : pos + (t :: us).length = pos + 1 + us.length := by rw [List.length_cons]; omega
      obtain ⟨c', q, hrun, hle, hv⟩ := (hc.next .condTerm htok).longest hd hus
      rw [hlen]
      refine ⟨.not c', q, ?_, hle, fun hq => by rw [hv hq]⟩
      exact condTerm_eq_success.mpr (Or.inl (Or.inl (negation_eq_success.mpr ⟨t, c', htok, ht, hrun, rfl⟩)))
    | @compare us ws t op a b ha ht hb =>
      obtain ⟨hus, htok, hws⟩ := Stands.append_cons_iff.mp hst
      obtain ⟨b', q, hrun, hle, hv⟩ := (expr_reads_from hc hf (pos + us.length + 1) (by omega)).longest hb hws
      rw [length_append_cons]
      exact ⟨.compare op a b', q, condTerm_of_comparison hc hf ha hus htok ht hrun, hle, fun hq => by rw [hv hq]⟩
    | @group l r us c hl hd hr =>
      obtain ⟨htl, hus, htr⟩ := Stands.enclosed_iff.mp hst
      rw [length_enclosed]
      exact ⟨c, _, condTerm_of_group hc hf htl hl hd hus htr hr, Nat.le_refl _, fun _ => rfl⟩

/-! ### Conditions with connectives -/

theorem cond_reads (hc : CallsRead ts called pos) (hf : ts.size < pos + fuel) :
    Reads ts (Cond.Derives .disjunction) (Production.GoesOn .cond) (cond.runWith ts called fuel) pos := by
  have hconj : ∀ q, pos ≤ q → Reads ts (Cond.Derives .conjunction) (fun t => t.IsOperator ∨ ∃ op ∈ [Connective.and],
      t.Is op.symbol) ((Parser.chainLeft condTerm (.map Cond.join (Parser.anyOperator Connective.symbol [.and]))).runWith
        ts called fuel) q := fun q hq => by
    have hf' : ts.size < q + fuel := Nat.lt_of_lt_of_le hf (Nat.add_le_add_right hq fuel)
    have h := level_reads Connective.symbol_injective Cond.join [.and] hf'
      (fun r hr => condTerm_reads (hc.mono (Nat.le_trans hq hr)) (Nat.lt_of_lt_of_le hf' (Nat.add_le_add_right hr fuel)))
      Cond.Derives.ne_nil (fun _ ht => Connective.not_isOperator ht)
    exact h.congr Cond.derives_conjunction_iff
  have h := level_reads Connective.symbol_injective Cond.join [.or] hf hconj Cond.Derives.ne_nil ?_
  · refine (h.congr Cond.derives_disjunction_iff).mono fun t ht => ?_
    rcases ht with (ht | ⟨op, -, ht⟩) | ⟨op, -, ht⟩
    · exact Or.inl ht
    · exact Or.inr ⟨op, ht⟩
    · exact Or.inr ⟨op, ht⟩
  · rintro t op hop ht (ht' | ⟨op', hop', ht'⟩)
    · exact Connective.not_isOperator ht ht'
    · obtain rfl := List.mem_singleton.mp hop
      obtain rfl := List.mem_singleton.mp hop'
      exact absurd (ht.1.symm.trans ht'.1) (by decide)

end Grammar

end Imp
