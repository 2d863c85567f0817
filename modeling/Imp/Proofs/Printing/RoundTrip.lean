import Imp.Proofs.Printing.MinusSigns
import Imp.Proofs.Program.Diagnosis
import Imp.Proofs.Semantics.Rules

/-! # Writing a tree and reading it

What is read from the written form of a tree: the tree itself exactly if it is in normal form, and
otherwise, if only its sequences nest in another way, a tree that runs in the same way. The written form
of a negative constant is no program. -/

namespace Imp

namespace Program

/-- From the written form of a tree without negative constants, the tree with its sequences nested to
    the left is read. -/
theorem ofSource_text_eq_ok {s : Stmt} (hn : ∀ x ∈ s.names, Kind.name.Spells x) (hc : ∀ n ∈ s.constants, 0 ≤ n) :
    ofSource s.text = .ok s.nestLeft := by
  obtain ⟨ts, hts, hkeys⟩ := s.tokenize_text hn
  exact ofSource_eq_ok.mpr ⟨ts, hts, Stmt.derives_of_lexemes hc hkeys⟩

/-- What is read from the written form of a tree is the tree itself, exactly if the tree is in normal
    form: its constants are not negative, its names are identifiers and not reserved, and no sequence is
    the second part of another. -/
theorem ofSource_text_iff (s : Stmt) : ofSource s.text = .ok s ↔
    (∀ n ∈ s.constants, 0 ≤ n) ∧ (∀ x ∈ s.names, IsIdentifier x ∧ x ∉ Lexicon.words) ∧ s.NestsLeft := by
  constructor
  · intro h
    have hnormal := isNormal h
    exact ⟨hnormal.constants, hnormal.names, hnormal.nestsLeft⟩
  · rintro ⟨hc, hn, hl⟩
    rw [ofSource_text_eq_ok hn hc, Stmt.nestLeft_of_nestsLeft hl]

/-- The written form of a tree whose names are identifiers is read, if no constant is negative, as the
    tree with its sequences nested to the left, which runs in the same way from every environment and
    with every limit. If a constant is negative, the written form has tokens but these are no program. -/
theorem ofSource_text_runs (s : Stmt) (hn : ∀ x ∈ s.names, IsIdentifier x ∧ x ∉ Lexicon.words) :
    ((∀ n ∈ s.constants, 0 ≤ n) →
      ofSource s.text = .ok s.nestLeft ∧ s.nestLeft.NestsLeft ∧
      ∀ limit e, (∀ o, s.nestLeft.Ends limit e o ↔ s.Ends limit e o) ∧
        (s.nestLeft.Diverges limit e ↔ s.Diverges limit e)) ∧
    ((∃ n ∈ s.constants, n < 0) →
      ∃ ts err, tokenize s.text = .ok ts ∧ ofTokens ts = .error err ∧ err.isSyntax) := by
  constructor
  · intro hc
    refine ⟨ofSource_text_eq_ok hn hc, Stmt.nestsLeft_nestLeft s, fun limit e => ?_⟩
    exact ⟨fun o => Stmt.ends_nestLeft_iff, Stmt.diverges_nestLeft_iff⟩
  · intro hneg
    obtain ⟨ts, hts, hkeys⟩ := s.tokenize_text hn
    cases h : ofTokens ts with
    | ok t => exact absurd (ofTokens_eq_ok.mp h) (Stmt.not_derives_of_lexemes hneg hkeys t)
    | error err => exact ⟨ts, err, hts, h, isSyntax_of_ofTokens h⟩

theorem ofSource_text_runs_nested :
    ofSource "x := 1 ; y := x ; x := y" =
      .ok (.seq (.seq (.assign "x" (.const 1)) (.assign "y" (.var "x"))) (.assign "x" (.var "y"))) ∧
    ∃ ts err, tokenize "x := -1" = .ok ts ∧ ofTokens ts = .error err ∧ err.isSyntax := by
  have hx : IsIdentifier "x" ∧ "x" ∉ Lexicon.words := ⟨⟨'x', [], rfl, rfl, nofun⟩, by decide⟩
  have hy : IsIdentifier "y" ∧ "y" ∉ Lexicon.words := ⟨⟨'y', [], rfl, rfl, nofun⟩, by decide⟩
  constructor
  · refine ((ofSource_text_runs (.seq (.assign "x" (.const 1)) (.seq (.assign "y" (.var "x")) (.assign "x" (.var "y"))))
      fun z hz => ?_).1 (by simp [Stmt.constants, Expr.constants])).1
    simp only [Stmt.names, Expr.names, List.mem_append, List.mem_cons, List.not_mem_nil, or_false] at hz
    rcases hz with rfl | (rfl | rfl) | rfl | rfl <;> assumption
  · refine (ofSource_text_runs (.assign "x" (.const (-1))) fun z hz => ?_).2 ⟨-1, by decide, by decide⟩
    obtain rfl := List.mem_singleton.mp hz
    exact hx

end Program

end Imp
