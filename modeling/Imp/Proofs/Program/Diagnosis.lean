import Imp.Proofs.Grammar.LongestMatch

/-! # What is wrong with tokens

Tokens that are no program are reported at the first token that does not fit. That token is found by
reading the longest list of statements at the start; so it stands behind the longest beginning of the
tokens that derives one, and there always is such a token. -/

namespace Imp

/-- So many tokens is the longest beginning that derives a list of statements; none, if no beginning does. -/
structure IsLongestPrefix (ts : List Token) (k : Nat) : Prop where
  le : k ≤ ts.length
  derives : 0 < k → ∃ s, Stmt.Derives .block (ts.take k) s
  longest : ∀ j, k < j → j ≤ ts.length → ∀ s, ¬ Stmt.Derives .block (ts.take j) s

namespace Program

variable {ts : Array Token}

theorem take_eq_extract (ts : Array Token) (k : Nat) : ts.toList.take k = (ts.extract 0 k).toList := by
  rw [Array.toList_extract, List.extract_eq_take_drop, List.drop_zero, Nat.sub_zero]

theorem isLongestPrefix_reach (ts : Array Token) : IsLongestPrefix ts.toList (reach ts) := by
  have h := Grammar.run_reads ts .block 0
  change Reads ts (Stmt.Derives .block) _ (Grammar.run Grammar.block ts) 0 at h
  rcases h.failure_or_success with hf | ⟨s, q, hs⟩
  · have hreach : reach ts = 0 := by rw [reach, hf]; rfl
    have hnone := (h.failure_iff Stmt.Derives.ne_nil).mp hf
    rw [hreach]
    refine ⟨Nat.zero_le _, fun hlt => absurd hlt (Nat.lt_irrefl 0), fun j _ hj s => ?_⟩
    rw [take_eq_extract]
    exact hnone j (Nat.zero_le j) hj s
  · have hreach : reach ts = q := by rw [reach, hs]; rfl
    obtain ⟨⟨-, hq, hd⟩, hmax⟩ := (h.success_iff Stmt.Derives.ne_nil).mp hs
    rw [hreach]
    refine ⟨hq, fun _ => ⟨s, ?_⟩, fun j hj hle s => ?_⟩
    · rwa [take_eq_extract]
    · rw [take_eq_extract]
      exact hmax j hj hle s

/-- Tokens of which some are left over are not all a list of statements. -/
theorem reach_lt (hne : ts ≠ #[]) (hs : ∀ s, ¬ Stmt.Derives .block ts.toList s) : reach ts < ts.size := by
  have h := isLongestPrefix_reach ts
  refine Nat.lt_of_le_of_ne h.le fun heq => ?_
  have hpos : 0 < reach ts := by
    rw [heq]
    exact Array.size_pos_iff.mpr hne
  obtain ⟨s, hd⟩ := h.derives hpos
  rw [heq, ← Array.length_toList, List.take_length] at hd
  exact hs s hd

/-- The error that reports a token with so many tokens before it that derive a list of statements. -/
def reported (k : Nat) (t : Token) : Error := if k = 0 then .noStatement t else .leftover t

/-- Tokens that are no program are reported at the first one that does not fit. -/
theorem ofTokens_eq_error (hne : ts ≠ #[]) (hs : ∀ s, ¬ Stmt.Derives .block ts.toList s) :
    ∃ t, ts[reach ts]? = some t ∧ ofTokens ts = .error (reported (reach ts) t) := by
  have hlt := reach_lt hne hs
  have ht : ts[reach ts]? = some ts[reach ts] := Array.getElem?_eq_getElem hlt
  refine ⟨_, ht, ?_⟩
  have hdiagnose : diagnose ts = reported (reach ts) ts[reach ts] := by
    change ts[(Grammar.run Grammar.block ts 0).toOption.elim 0 (·.2)]? = _ at ht
    simp only [diagnose, ht]
    rfl
  have hempty : ¬ ts.isEmpty = true := mt Array.isEmpty_iff.mp hne
  rw [ofTokens, if_neg hempty]
  split
  · next hrun => exact absurd (Grammar.run_program_eq_success.mp hrun).2 (hs _)
  · rw [hdiagnose]

/-- What is wrong with tokens that are no program: there are none, or one of them is reported. -/
theorem error_of_ofTokens {err : Error} (h : ofTokens ts = .error err) :
    ts = #[] ∧ err = .unexpectedEnd ∨ ∃ k, ∃ t ∈ ts, err = reported k t := by
  by_cases hne : ts = #[]
  · subst hne
    cases h
    exact Or.inl ⟨rfl, rfl⟩
  · have hs : ∀ s, ¬ Stmt.Derives .block ts.toList s := fun s hd => by
      rw [ofTokens_eq_ok.mpr hd] at h
      cases h
    obtain ⟨t, ht, herr⟩ := ofTokens_eq_error hne hs
    rw [herr] at h
    exact Or.inr ⟨reach ts, t, Array.mem_of_getElem? ht, (Except.error.inj h).symm⟩

theorem isSyntax_reported (k : Nat) (t : Token) : (reported k t).isSyntax := by
  unfold reported
  split <;> rfl

theorem isSyntax_of_ofTokens {err : Error} (h : ofTokens ts = .error err) : err.isSyntax := by
  rcases error_of_ofTokens h with ⟨-, rfl⟩ | ⟨k, t, -, rfl⟩
  · rfl
  · exact isSyntax_reported k t

theorem noStatement_ne (t : Token) : Error.noStatement t ≠ .parseError "incomplete program" := by
  intro h
  have htext := congrArg String.toList (Error.parseError.inj h)
  simp at htext

/-- No tokens at all are the end of the text. Other tokens that derive no list of statements are reported
    at the first one behind the longest beginning that does, or at the first of all if none does; there
    is always a token to be reported. -/
theorem ofTokens_diagnosis (ts : Array Token) :
    (ts = #[] → ofTokens ts = .error .unexpectedEnd) ∧
    (ts ≠ #[] → (∀ s, ¬ Stmt.Derives .block ts.toList s) → ∃ k t, IsLongestPrefix ts.toList k ∧ k < ts.size ∧
      ts[k]? = some t ∧
      (k = 0 → ofTokens ts = .error (.parseError ("expected a statement, found '" ++ t.text ++ "' at line " ++
        toString t.place.line ++ ", column " ++ toString t.place.column))) ∧
      (0 < k → ofTokens ts = .error (.syntaxError t.place ("unexpected token '" ++ t.text ++ "'")))) ∧
    ofTokens ts ≠ .error (.parseError "incomplete program") := by
  refine ⟨fun h => by rw [h]; rfl, fun hne hs => ?_, fun h => ?_⟩
  · obtain ⟨t, ht, herr⟩ := ofTokens_eq_error hne hs
    refine ⟨reach ts, t, isLongestPrefix_reach ts, reach_lt hne hs, ht, fun hk => ?_, fun hk => ?_⟩
    · have hline : "' at line " = "' at " ++ "line " := rfl
      rw [herr, reported, if_pos hk, hline]
      simp only [Error.noStatement, Place.text, String.append_assoc]
    · rw [herr, reported, if_neg (Nat.pos_iff_ne_zero.mp hk)]
      rfl
  · by_cases hne : ts = #[]
    · subst hne
      cases h
    · have hs : ∀ s, ¬ Stmt.Derives .block ts.toList s := fun s hd => by
        rw [ofTokens_eq_ok.mpr hd] at h
        cases h
      obtain ⟨t, -, herr⟩ := ofTokens_eq_error hne hs
      rw [herr, reported] at h
      split at h
      · exact noStatement_ne t (Except.error.inj h)
      · cases h

theorem ofTokens_diagnosis_dangling :
    let ts : Array Token := #[⟨"x", .name, ⟨1, 1⟩⟩, ⟨":=", .reserved, ⟨1, 3⟩⟩, ⟨"1", .numeral, ⟨1, 6⟩⟩,
      ⟨";", .reserved, ⟨2, 1⟩⟩]
    ts ≠ #[] ∧ (∀ s, ¬ Stmt.Derives .block ts.toList s) ∧ IsLongestPrefix ts.toList 3 ∧
      ofTokens ts = .error (.syntaxError ⟨2, 1⟩ "unexpected token ';'") := by
  intro ts
  have hne : ts ≠ #[] := by decide
  have hrun : Grammar.run Grammar.program ts 0 = .failure := by decide
  have hs : ∀ s, ¬ Stmt.Derives .block ts.toList s := fun s hd => by
    rw [Grammar.run_program_eq_success.mpr ⟨rfl, hd⟩] at hrun
    cases hrun
  have hd : Stmt.Derives .block (ts.toList.take 3) (.assign "x" (.const 1)) :=
    .single (.assign rfl ⟨rfl, rfl⟩ (.single (.term (.const rfl (by decide)))))
  obtain ⟨k, t, hk, hlt, ht, -, herr⟩ := (ofTokens_diagnosis ts).2.1 hne hs
  have hk3 : k = 3 := by
    have hle : 3 ≤ k := Nat.le_of_not_lt fun h => hk.longest 3 h (by decide) _ hd
    have hsize : ts.size = 4 := rfl
    omega
  subst hk3
  cases ht
  exact ⟨hne, hs, hk, herr (by decide)⟩

end Program

end Imp
