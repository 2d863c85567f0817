import Imp.Proofs.Grammar.Conditions

/-! # Statements are read

A statement with parts begins with a reserved word of its own and ends with `end`, so it is taken as
it stands; an assignment ends with an expression. A list of statements is a chain with semicolons. -/

namespace Imp

theorem Stmt.derives_block_iff {seg : List Token} {s : Stmt} : Stmt.Derives .block seg s ↔
    Chained (Stmt.Derives .single) (fun t f => t.Is ";" ∧ f = Stmt.seq) seg s := by
  constructor
  · intro h
    generalize hl : Layer.block = l at h
    induction h with
    | single h => exact .single h
    | seq _ ht hb iha _ => exact .more (iha hl) ⟨ht, rfl⟩ hb
    | _ => cases hl
  · intro h
    induction h with
    | single h => exact .single h
    | more _ hS hd ih =>
      obtain ⟨ht, rfl⟩ := hS
      exact .seq ih ht hd

namespace Grammar

variable {ts : Array Token} {called : (n : Production) → Nat → Answer n.Value} {fuel pos : Nat}

/-! ### A word, a condition, a word and statements -/

/-- The common beginning of choices and loops. -/
def clause (first second : String) : Rule (((String × Cond) × String) × Stmt) :=
  .seq (.seq (.seq (keyword first) cond) (keyword second)) anyBlock

section

variable {first second : String}

theorem clause_eq_success {v : ((String × Cond) × String) × Stmt} {q : Nat} :
    (clause first second).runWith ts called fuel pos = .success v q ↔ ∃ t mid u, ts[pos]? = some t ∧ t.Is first ∧
      cond.runWith ts called fuel (pos + 1) = .success v.1.1.2 mid ∧ ts[mid]? = some u ∧ u.Is second ∧
      called .block (mid + 1) = .success v.2 q ∧ v.1.1.1 = t.text ∧ v.1.2 = u.text := by
  simp only [clause, Parser.seq_eq_success, keyword_eq_success]
  constructor
  · rintro ⟨_, ⟨mid, ⟨_, ⟨t, ht, hi, hx, rfl⟩, hc⟩, u, hu, hui, hy, rfl⟩, hb⟩
    exact ⟨t, mid, u, ht, hi, hc, hu, hui, hb, hx, hy⟩
  · rintro ⟨t, mid, u, ht, hi, hc, hu, hui, hb, hx, hy⟩
    exact ⟨mid + 1, ⟨mid, ⟨pos + 1, ⟨t, ht, hi, hx, rfl⟩, hc⟩, u, hu, hui, hy, rfl⟩, hb⟩

theorem clause_finished (hc : CallsRead ts called pos) (hf : ts.size < pos + fuel) :
    (clause first second).runWith ts called fuel pos ≠ .unfinished := by
  refine Parser.seq_finished (Parser.seq_finished (Parser.seq_finished Parser.token_finished fun _ mid h => ?_)
    fun _ _ _ => Parser.token_finished) fun v mid h => ?_
  · obtain ⟨t, -, -, -, rfl⟩ := keyword_eq_success.mp h
    exact (cond_reads (hc.mono (by omega)) (by omega)).finished
  · obtain ⟨mid', hhead, hsecond⟩ := Parser.seq_eq_success.mp h
    obtain ⟨mid'', hfirst, hcond⟩ := Parser.seq_eq_success.mp hhead
    obtain ⟨t, -, -, -, rfl⟩ := keyword_eq_success.mp hfirst
    obtain ⟨cs, -, rfl, -⟩ := (cond_reads (hc.mono (by omega)) (by omega)).sound hcond
    obtain ⟨u, hu, -, -, rfl⟩ := keyword_eq_success.mp hsecond
    exact ((hc.mono (by omega)).next .block hu).finished

theorem clause_eq_failure (hc : CallsRead ts called pos) (hf : ts.size < pos + fuel) {t : Token} (ht : ts[pos]? = some t)
    (hn : ¬ t.Is first) : (clause first second).runWith ts called fuel pos = .failure :=
  Answer.eq_failure_of_finished (clause_finished hc hf) fun v q h => by
    obtain ⟨t', _, _, ht', hi, -⟩ := clause_eq_success.mp h
    rw [ht] at ht'
    cases ht'
    exact hn hi

theorem clause_sound (hc : CallsRead ts called pos) (hf : ts.size < pos + fuel) {v : ((String × Cond) × String) × Stmt}
    {q : Nat} (h : (clause first second).runWith ts called fuel pos = .success v q) :
    ∃ t cs u ss, Stands ts pos (t :: cs ++ u :: ss) ∧ q = pos + (t :: cs ++ u :: ss).length ∧ t.Is first ∧
      Cond.Derives .disjunction cs v.1.1.2 ∧ u.Is second ∧ Stmt.Derives .block ss v.2 := by
  obtain ⟨t, mid, u, ht, hi, hcond, hu, hui, hb, -, -⟩ := clause_eq_success.mp h
  obtain ⟨cs, hcs, rfl, hd⟩ := (cond_reads (hc.mono (by omega)) (by omega)).sound hcond
  obtain ⟨ss, hss, rfl, hds⟩ := ((hc.mono (by omega)).next .block hu).sound hb
  refine ⟨t, cs, u, ss, ?_, ?_, hi, hd, hui, hds⟩
  · rw [List.cons_append, Stands.cons_iff, Stands.append_iff, Stands.cons_iff]
    exact ⟨ht, hcs, hu, hss⟩
  · simp only [List.length_append, List.length_cons]
    omega

theorem clause_exact (hc : CallsRead ts called pos) (hf : ts.size < pos + fuel) {t u w : Token} {cs ss : List Token}
    {c : Cond} {s : Stmt} (hi : t.Is first) (hd : Cond.Derives .disjunction cs c) (hui : u.Is second)
    (hds : Stmt.Derives .block ss s) (hst : Stands ts pos (t :: cs ++ u :: ss))
    (hw : ts[pos + (t :: cs ++ u :: ss).length]? = some w) (hu : second ∈ [")", "then", "do", "else", "end"])
    {text : String} (hwi : w.Is text) (htext : text ∈ [")", "then", "do", "else", "end"]) :
    (clause first second).runWith ts called fuel pos =
      .success (((t.text, c), u.text), s) (pos + (t :: cs ++ u :: ss).length) := by
  rw [List.cons_append, Stands.cons_iff, Stands.append_iff, Stands.cons_iff] at hst
  obtain ⟨ht, hcs, hu', hss⟩ := hst
  have hlen : pos + (t :: cs ++ u :: ss).length = pos + 1 + cs.length + 1 + ss.length := by
    simp only [List.length_append, List.length_cons]
    omega
  rw [hlen] at hw ⊢
  have hcond := (cond_reads (hc.mono (Nat.le_succ pos)) (by omega : ts.size < pos + 1 + fuel)).exact hd hcs
    (Production.not_goesOn_at hu' hui hu .cond)
  have hblock := ((hc.mono (by omega)).next .block hu').exact hds hss (Production.not_goesOn_at hw hwi htext .block)
  exact clause_eq_success.mpr ⟨t, _, u, ht, hi, hcond, hu', hui, hblock, rfl, rfl⟩

end

/-! ### The kinds of statements -/

theorem assignment_eq_success {s : Stmt} {q : Nat} : assignment.runWith ts called fuel pos = .success s q ↔
    ∃ x t e, ts[pos]? = some x ∧ x.kind = .name ∧ ts[pos + 1]? = some t ∧ t.Is ":=" ∧
      expr.runWith ts called fuel (pos + 2) = .success e q ∧ s = .assign x.text e := by
  simp only [assignment, Parser.map_eq_success, Parser.seq_eq_success, keyword_eq_success, Parser.ofKind_eq_success]
  constructor
  · rintro ⟨⟨⟨_, _⟩, e⟩, ⟨_, ⟨_, ⟨x, hx, hk, rfl, rfl⟩, t, ht, hi, -, rfl⟩, he⟩, rfl⟩
    exact ⟨x, t, e, hx, hk, ht, hi, he, rfl⟩
  · rintro ⟨x, t, e, hx, hk, ht, hi, he, rfl⟩
    exact ⟨((x.text, t.text), e), ⟨pos + 2, ⟨pos + 1, ⟨x, hx, hk, rfl, rfl⟩, t, ht, hi, rfl, rfl⟩, he⟩, rfl⟩

theorem assignment_finished (hc : CallsRead ts called pos) (hf : ts.size < pos + fuel) :
    assignment.runWith ts called fuel pos ≠ .unfinished := by
  refine Answer.map_finished (Parser.seq_finished (Parser.seq_finished Parser.ofKind_finished fun _ _ _ =>
    Parser.token_finished) fun v mid h => ?_)
  obtain ⟨mid', hx, ht⟩ := Parser.seq_eq_success.mp h
  obtain ⟨_, -, -, -, rfl⟩ := Parser.ofKind_eq_success.mp hx
  obtain ⟨_, -, -, -, rfl⟩ := keyword_eq_success.mp ht
  exact (expr_reads_from hc hf _ (by omega)).finished

theorem assignment_eq_failure (hc : CallsRead ts called pos) (hf : ts.size < pos + fuel) {t : Token}
    (ht : ts[pos]? = some t) (hk : t.kind = .reserved) : assignment.runWith ts called fuel pos = .failure :=
  Answer.eq_failure_of_finished (assignment_finished hc hf) fun s q h => by
    obtain ⟨x, _, _, hx, hk', -⟩ := assignment_eq_success.mp h
    rw [ht] at hx
    cases hx
    rw [hk] at hk'
    cases hk'

/-- What may stand between the first statements of a choice and its end. -/
def alternative : Rule (Option (String × Stmt)) := .opt (.seq (keyword "else") anyBlock)

theorem alternative_eq_success {v : Option (String × Stmt)} {q : Nat} :
    alternative.runWith ts called fuel pos = .success v q ↔
      (∃ l u, ts[pos]? = some l ∧ l.Is "else" ∧ called .block (pos + 1) = .success u q ∧ v = some (l.text, u)) ∨
        (Parser.seq (keyword "else") anyBlock).runWith ts called fuel pos = .failure ∧ v = none ∧ q = pos := by
  show Answer.optional _ _ = _ ↔ _
  rw [Answer.optional_eq_success]
  refine or_congr ?_ Iff.rfl
  constructor
  · rintro ⟨⟨x, u⟩, h, rfl⟩
    obtain ⟨mid, hword, hu⟩ := Parser.seq_eq_success.mp h
    obtain ⟨l, hl, hi, rfl, rfl⟩ := keyword_eq_success.mp hword
    exact ⟨l, u, hl, hi, hu, rfl⟩
  · rintro ⟨l, u, hl, hi, hu, rfl⟩
    exact ⟨(l.text, u), Parser.seq_eq_success.mpr ⟨pos + 1, keyword_eq_success.mpr ⟨l, hl, hi, rfl, rfl⟩, hu⟩, rfl⟩

theorem alternative_finished (hc : CallsRead ts called pos) : alternative.runWith ts called fuel pos ≠ .unfinished := by
  refine Answer.optional_finished (Parser.seq_finished Parser.token_finished fun x mid h => ?_)
  obtain ⟨l, hl, -, -, rfl⟩ := keyword_eq_success.mp h
  exact (hc.next .block hl).finished

theorem choice_eq_success {s : Stmt} {q : Nat} : choice.runWith ts called fuel pos = .success s q ↔
    ∃ v mid o stop f, (clause "if" "then").runWith ts called fuel pos = .success v mid ∧
      alternative.runWith ts called fuel mid = .success o stop ∧ ts[stop]? = some f ∧ f.Is "end" ∧ q = stop + 1 ∧
        s = o.elim (.when v.1.1.2 v.2) fun u => .branch v.1.1.2 v.2 u.2 := by
  show Answer.map _ ((Parser.seq (Parser.seq (clause "if" "then") alternative) (keyword "end")).runWith
    ts called fuel pos) = _ ↔ _
  simp only [Answer.map_eq_success, Parser.seq_eq_success, keyword_eq_success]
  constructor
  · rintro ⟨⟨⟨v, o⟩, _⟩, ⟨stop, ⟨mid, hv, ho⟩, f, hf, hi, -, rfl⟩, rfl⟩
    exact ⟨v, mid, o, stop, f, hv, ho, hf, hi, rfl, rfl⟩
  · rintro ⟨v, mid, o, stop, f, hv, ho, hf, hi, rfl, rfl⟩
    exact ⟨((v, o), f.text), ⟨stop, ⟨mid, hv, ho⟩, f, hf, hi, rfl, rfl⟩, rfl⟩

theorem loop_eq_success {s : Stmt} {q : Nat} : loop.runWith ts called fuel pos = .success s q ↔
    ∃ v stop f, (clause "while" "do").runWith ts called fuel pos = .success v stop ∧ ts[stop]? = some f ∧
      f.Is "end" ∧ q = stop + 1 ∧ s = .loop v.1.1.2 v.2 := by
  show Answer.map _ ((Parser.seq (clause "while" "do") (keyword "end")).runWith ts called fuel pos) = _ ↔ _
  simp only [Answer.map_eq_success, Parser.seq_eq_success, keyword_eq_success]
  constructor
  · rintro ⟨⟨v, _⟩, ⟨stop, hv, f, hf, hi, -, rfl⟩, rfl⟩
    exact ⟨v, stop, f, hv, hf, hi, rfl, rfl⟩
  · rintro ⟨v, stop, f, hv, hf, hi, rfl, rfl⟩
    exact ⟨(v, f.text), ⟨stop, hv, f, hf, hi, rfl, rfl⟩, rfl⟩

theorem choice_finished (hc : CallsRead ts called pos) (hf : ts.size < pos + fuel) :
    choice.runWith ts called fuel pos ≠ .unfinished := by
  refine Answer.map_finished (Parser.seq_finished (Parser.seq_finished (clause_finished hc hf) fun v mid h => ?_)
    fun _ _ _ => Parser.token_finished)
  obtain ⟨t, cs, u, ss, -, rfl, -⟩ := clause_sound hc hf h
  exact alternative_finished (hc.mono (by omega))

theorem choice_eq_failure (hc : CallsRead ts called pos) (hf : ts.size < pos + fuel) {t : Token}
    (ht : ts[pos]? = some t) (hn : ¬ t.Is "if") : choice.runWith ts called fuel pos = .failure :=
  Answer.eq_failure_of_finished (choice_finished hc hf) fun s q h => by
    obtain ⟨v, mid, _, _, _, hv, -⟩ := choice_eq_success.mp h
    rw [clause_eq_failure hc hf ht hn] at hv
    cases hv

theorem loop_finished (hc : CallsRead ts called pos) (hf : ts.size < pos + fuel) :
    loop.runWith ts called fuel pos ≠ .unfinished :=
  Answer.map_finished (Parser.seq_finished (clause_finished hc hf) fun _ _ _ => Parser.token_finished)

theorem statement_eq_success {s : Stmt} {q : Nat} : statement.runWith ts called fuel pos = .success s q ↔
    (assignment.runWith ts called fuel pos = .success s q ∨
      assignment.runWith ts called fuel pos = .failure ∧ choice.runWith ts called fuel pos = .success s q) ∨
    (Parser.alt assignment choice).runWith ts called fuel pos = .failure ∧
      loop.runWith ts called fuel pos = .success s q := by
  rw [statement, Parser.alt_eq_success, Parser.alt_eq_success]

theorem statement_finished (hc : CallsRead ts called pos) (hf : ts.size < pos + fuel) :
    statement.runWith ts called fuel pos ≠ .unfinished :=
  Answer.orElse_finished (Answer.orElse_finished (assignment_finished hc hf) (choice_finished hc hf))
    (loop_finished hc hf)

theorem choice_sound (hc : CallsRead ts called pos) (hf : ts.size < pos + fuel) {s : Stmt} {q : Nat}
    (h : choice.runWith ts called fuel pos = .success s q) :
    ∃ seg, Stands ts pos seg ∧ q = pos + seg.length ∧ Stmt.Derives .single seg s := by
  obtain ⟨v, mid, o, stop, f, hv, ho, hend, hi, rfl, rfl⟩ := choice_eq_success.mp h
  obtain ⟨t, cs, u, ss, hst, rfl, hti, hcs, hui, hss⟩ := clause_sound hc hf hv
  rcases alternative_eq_success.mp ho with ⟨l, w, hl, hli, hw, rfl⟩ | ⟨-, rfl, rfl⟩
  · obtain ⟨us, hus, rfl, hd⟩ := ((hc.mono (by omega)).next .block hl).sound hw
    have hmost : Stands ts pos (t :: cs ++ u :: ss ++ l :: us) := Stands.append_cons_iff.mpr ⟨hst, hl, hus⟩
    have hlen : pos + (t :: cs ++ u :: ss ++ l :: us).length = pos + (t :: cs ++ u :: ss).length + 1 + us.length :=
      length_append_cons pos
    rw [← hlen] at hend ⊢
    exact ⟨t :: cs ++ u :: ss ++ l :: us ++ [f], Stands.append_iff.mpr ⟨hmost, Stands.singleton_iff.mpr hend⟩,
      (length_append_singleton pos).symm, .branch hti hcs hui hss hli hd hi⟩
  · exact ⟨t :: cs ++ u :: ss ++ [f], Stands.append_iff.mpr ⟨hst, Stands.singleton_iff.mpr hend⟩,
      (length_append_singleton pos).symm, .when hti hcs hui hss hi⟩

theorem statement_sound (hc : CallsRead ts called pos) (hf : ts.size < pos + fuel) {s : Stmt} {q : Nat}
    (h : statement.runWith ts called fuel pos = .success s q) :
    ∃ seg, Stands ts pos seg ∧ q = pos + seg.length ∧ Stmt.Derives .single seg s := by
  rcases statement_eq_success.mp h with (h | ⟨-, h⟩) | ⟨-, h⟩
  · obtain ⟨x, t, e, hx, hk, ht, hi, he, rfl⟩ := assignment_eq_success.mp h
    obtain ⟨seg, hst, rfl, hd⟩ := (expr_reads_from hc hf _ (by omega)).sound he
    refine ⟨x :: t :: seg, ?_, by simp only [List.length_cons]; omega, .assign hk hi hd⟩
    rw [Stands.cons_iff, Stands.cons_iff]
    exact ⟨hx, ht, hst⟩
  · exact choice_sound hc hf h
  · obtain ⟨v, stop, f, hv, hend, hi, rfl, rfl⟩ := loop_eq_success.mp h
    obtain ⟨t, cs, u, ss, hst, rfl, hti, hcs, hui, hss⟩ := clause_sound hc hf hv
    exact ⟨t :: cs ++ u :: ss ++ [f], Stands.append_iff.mpr ⟨hst, Stands.singleton_iff.mpr hend⟩,
      (length_append_singleton pos).symm, .loop hti hcs hui hss hi⟩

/-- An assignment ends where its expression ends. -/
theorem statement_of_assignment {x t : Token} {e : Expr} {q : Nat} (hx : ts[pos]? = some x) (hk : x.kind = .name)
    (ht : ts[pos + 1]? = some t) (hi : t.Is ":=") (he : expr.runWith ts called fuel (pos + 2) = .success e q) :
    statement.runWith ts called fuel pos = .success (.assign x.text e) q :=
  statement_eq_success.mpr (Or.inl (Or.inl (assignment_eq_success.mpr ⟨x, t, e, hx, hk, ht, hi, he, rfl⟩)))

theorem statement_of_choice (hc : CallsRead ts called pos) (hf : ts.size < pos + fuel) {t : Token} {s : Stmt} {q : Nat}
    (ht : ts[pos]? = some t) (hi : t.Is "if") (h : choice.runWith ts called fuel pos = .success s q) :
    statement.runWith ts called fuel pos = .success s q :=
  statement_eq_success.mpr (Or.inl (Or.inr ⟨assignment_eq_failure hc hf ht hi.2, h⟩))

theorem statement_of_loop (hc : CallsRead ts called pos) (hf : ts.size < pos + fuel) {t : Token} {s : Stmt} {q : Nat}
    (ht : ts[pos]? = some t) (hi : t.Is "while") (h : loop.runWith ts called fuel pos = .success s q) :
    statement.runWith ts called fuel pos = .success s q := by
  have hn : ¬ t.Is "if" := fun h => absurd (hi.1.symm.trans h.1) (by decide)
  refine statement_eq_success.mpr (Or.inr ⟨?_, h⟩)
  exact (Answer.orElse_of_failure (assignment_eq_failure hc hf ht hi.2)).trans (choice_eq_failure hc hf ht hn)

/-- A statement that ends with a reserved word is taken as it stands, whatever follows. -/
theorem statement_exact (hc : CallsRead ts called pos) (hf : ts.size < pos + fuel) {seg : List Token} {s : Stmt}
    (hd : Stmt.Derives .single seg s) (hs : ∀ x e, s ≠ .assign x e) (hst : Stands ts pos seg) :
    statement.runWith ts called fuel pos = .success s (pos + seg.length) := by
  cases hd with
  | assign => exact absurd rfl (hs _ _)
  | @when i t f cs ss c s hi hcs ht hss hfi =>
    obtain ⟨hclause, hend⟩ := Stands.append_iff.mp hst
    rw [Stands.singleton_iff] at hend
    have hif := (Stands.cons_iff.mp (Stands.append_iff.mp hclause).1).1
    have hrun := clause_exact hc hf hi hcs ht hss hclause hend (by decide) hfi (by decide)
    have hnone : (Parser.seq (keyword "else") anyBlock).runWith ts called fuel (pos + (i :: cs ++ t :: ss).length) =
        .failure := Parser.seq_eq_failure.mpr (Or.inl (Parser.token_eq_failure fun f' hf' hl => by
      rw [hend] at hf'
      cases hf'
      exact absurd (hfi.1.symm.trans hl.1) (by decide)))
    refine statement_of_choice hc hf hif hi (choice_eq_success.mpr ⟨_, _, none, _, f, hrun,
      alternative_eq_success.mpr (Or.inr ⟨hnone, rfl, rfl⟩), hend, hfi, ?_, rfl⟩)
    rw [length_append_singleton]
  | @branch i t l f cs ss us c s u hi hcs ht hss hl hus hfi =>
    obtain ⟨hmost, hend⟩ := Stands.append_iff.mp hst
    obtain ⟨hclause, hl', hus'⟩ := Stands.append_cons_iff.mp hmost
    rw [Stands.singleton_iff, length_append_cons] at hend
    have hif := (Stands.cons_iff.mp (Stands.append_iff.mp hclause).1).1
    have hrun := clause_exact hc hf hi hcs ht hss hclause hl' (by decide) hl (by decide)
    have hblock := ((hc.mono (Nat.le_add_right _ _)).next .block hl').exact hus hus'
      (Production.not_goesOn_at hend hfi (by decide) .block)
    refine statement_of_choice hc hf hif hi (choice_eq_success.mpr ⟨_, _, some (l.text, u), _, f, hrun,
      alternative_eq_success.mpr (Or.inl ⟨l, u, hl', hl, hblock, rfl⟩), hend, hfi, ?_, rfl⟩)
    rw [length_append_singleton, length_append_cons]
  | @loop w d f cs ss c s hw hcs hd hss hfi =>
    obtain ⟨hclause, hend⟩ := Stands.append_iff.mp hst
    rw [Stands.singleton_iff] at hend
    have hwhile := (Stands.cons_iff.mp (Stands.append_iff.mp hclause).1).1
    have hrun := clause_exact hc hf hw hcs hd hss hclause hend (by decide) hfi (by decide)
    refine statement_of_loop hc hf hwhile hw (loop_eq_success.mpr ⟨_, _, f, hrun, hend, hfi, ?_, rfl⟩)
    rw [length_append_singleton]

theorem statement_reads (hc : CallsRead ts called pos) (hf : ts.size < pos + fuel) :
    Reads ts (Stmt.Derives .single) Token.IsOperator (statement.runWith ts called fuel) pos where
  finished := statement_finished hc hf
  sound := statement_sound hc hf
  exact := by
    intro seg s hd hst hn
    cases hd with
    | @assign x t us e hk hi he =>
      rw [Stands.cons_iff, Stands.cons_iff] at hst
      obtain ⟨hx, ht, hus⟩ := hst
      have hlen : pos + (x :: t :: us).length = pos + 2 + us.length := by
        simp only [List.length_cons]
        omega
      rw [hlen] at hn ⊢
      exact statement_of_assignment hx hk ht hi ((expr_reads_from hc hf _ (by omega)).exact he hus hn)
    | «when» hi hcs ht hss hfi => exact statement_exact hc hf (.when hi hcs ht hss hfi) nofun hst
    | branch hi hcs ht hss hl hus hfi => exact statement_exact hc hf (.branch hi hcs ht hss hl hus hfi) nofun hst
    | loop hw hcs hd hss hfi => exact statement_exact hc hf (.loop hw hcs hd hss hfi) nofun hst
  longest := by
    intro seg s hd hst
    by_cases hs : ∃ x e, s = .assign x e
    · obtain ⟨_, _, rfl⟩ := hs
      cases hd with
      | @assign x t us e hk hi he =>
        rw [Stands.cons_iff, Stands.cons_iff] at hst
        obtain ⟨hx, ht, hus⟩ := hst
        have hlen : pos + (x :: t :: us).length = pos + 2 + us.length := by
          simp only [List.length_cons]
          omega
        obtain ⟨e', q, hrun, hle, hv⟩ := (expr_reads_from hc hf _ (by omega)).longest he hus
        rw [hlen]
        exact ⟨_, q, statement_of_assignment hx hk ht hi hrun, hle, fun hq => by rw [hv hq]⟩
    · exact ⟨s, _, statement_exact hc hf hd (fun x e h => hs ⟨x, e, h⟩) hst, Nat.le_refl _, fun _ => rfl⟩

/-! ### Lists of statements -/

theorem block_reads (hc : CallsRead ts called pos) (hf : ts.size < pos + fuel) :
    Reads ts (Stmt.Derives .block) (Production.GoesOn .block) (block.runWith ts called fuel) pos := by
  have hsep : Separates ts (fun t f => t.Is ";" ∧ f = Stmt.seq)
      ((Parser.map (fun _ => Stmt.seq) (keyword ";") : Rule _).runWith ts called fuel) :=
    { sound := fun h => by
        obtain ⟨x, hx, rfl⟩ := Parser.map_eq_success.mp h
        obtain ⟨t, ht, hi, -, hq⟩ := keyword_eq_success.mp hx
        exact ⟨t, ht, ⟨hi, rfl⟩, hq⟩
      taken := fun ht ⟨hi, hj⟩ =>
        Parser.map_eq_success.mpr ⟨_, keyword_eq_success.mpr ⟨_, ht, hi, rfl, rfl⟩, hj⟩
      finished := fun _ => Answer.map_finished Parser.token_finished }
  have hop : ∀ q, pos ≤ q → Reads ts (Stmt.Derives .single) Token.IsOperator (statement.runWith ts called fuel) q :=
    fun q hq => statement_reads (hc.mono hq) (Nat.lt_of_lt_of_le hf (Nat.add_le_add_right hq fuel))
  refine ((Reads.chain hop hsep Stmt.Derives.ne_nil ?_ hf).congr Stmt.derives_block_iff).mono fun t ht => ?_
  · rintro t _ ⟨ht, -⟩ ⟨op, hop⟩
    exact absurd (ht.1.symm.trans hop.1) (by cases op <;> decide)
  · exact ht.imp id fun ⟨_, ht, _⟩ => ht

end Grammar

end Imp
