import Imp.Proofs.Grammar.Keys
import Imp.Proofs.Program.Diagnosis
import Imp.Proofs.Token.Spacing

/-! # Layout does not matter

How a program is laid out decides where its tokens stand, and nothing else. Whatever gaps are chosen, the
tokens have the same texts and classes, and these are all that a parser sees. Where tokens are no program,
the place only shows in the report of the token that does not fit, and that is the same one. -/

namespace Imp.Program

variable {ts us : Array Token}

theorem reach_congr (h : ts.map Token.key = us.map Token.key) : reach ts = reach us := by
  rw [reach, reach, Grammar.run_congr h]

/-- Tokens with the same texts and classes are the same program, or are none for the same reason. -/
theorem ofTokens_congr (h : ts.map Token.key = us.map Token.key) :
    (∃ s, ofTokens ts = .ok s ∧ ofTokens us = .ok s) ∨
    (ofTokens ts = .error .unexpectedEnd ∧ ofTokens us = .error .unexpectedEnd) ∨
    ∃ k t u, ts[k]? = some t ∧ us[k]? = some u ∧ ofTokens ts = .error (reported k t) ∧
      ofTokens us = .error (reported k u) := by
  have hsize := Parser.size_eq_of_keys h
  have hkeys : ts.toList.map Token.key = us.toList.map Token.key := by
    rw [← Array.toList_map, h, Array.toList_map]
  by_cases hs : ∃ s, Stmt.Derives .block ts.toList s
  · obtain ⟨s, hs⟩ := hs
    exact Or.inl ⟨s, ofTokens_eq_ok.mpr hs, ofTokens_eq_ok.mpr (hs.of_keys hkeys)⟩
  · have hts : ∀ s, ¬ Stmt.Derives .block ts.toList s := fun s hd => hs ⟨s, hd⟩
    have hus : ∀ s, ¬ Stmt.Derives .block us.toList s := fun s hd => hts s (hd.of_keys hkeys.symm)
    by_cases hne : ts = #[]
    · have hempty : us = #[] := by
        rw [hne, Array.size_empty] at hsize
        exact Array.eq_empty_of_size_eq_zero hsize.symm
      rw [hne, hempty]
      exact Or.inr (Or.inl ⟨rfl, rfl⟩)
    · have hne' : us ≠ #[] := fun hempty => by
        rw [hempty, Array.size_empty] at hsize
        exact hne (Array.eq_empty_of_size_eq_zero hsize)
      obtain ⟨t, ht, hterr⟩ := ofTokens_eq_error hne hts
      obtain ⟨u, hu, huerr⟩ := ofTokens_eq_error hne' hus
      rw [← reach_congr h] at hu huerr
      exact Or.inr (Or.inr ⟨reach ts, t, u, ht, hu, hterr, huerr⟩)

/-- Texts of which each may have its class, with gaps between them, are scanned as just these texts and
    classes. Tokens that differ in their places alone are the same to every parser of the grammar; they are
    the same program, or both are none and the tokens with the same index are reported, in the same way. -/
theorem layout_irrelevant :
    (∀ pieces last, IsSpacing pieces last →
      ∃ ts, tokenize (String.ofList (spaced last pieces)) = .ok ts ∧ ts.toList.map Token.key = pieces.map Prod.snd) ∧
    (∀ ts us : Array Token, ts.map Token.key = us.map Token.key →
      (∀ {α : Type} (p : Grammar.Rule α) pos, Grammar.run p ts pos = Grammar.run p us pos) ∧
      ((∃ s, ofTokens ts = .ok s ∧ ofTokens us = .ok s) ∨
        (ofTokens ts = .error .unexpectedEnd ∧ ofTokens us = .error .unexpectedEnd) ∨
        ∃ k t u, ts[k]? = some t ∧ us[k]? = some u ∧ ofTokens ts = .error (reported k t) ∧
          ofTokens us = .error (reported k u))) := by
  refine ⟨fun pieces last h => h.tokenize, fun ts us h => ⟨fun p pos => ?_, ofTokens_congr h⟩⟩
  rw [Grammar.run_congr h]

theorem layout_irrelevant_comments :
    let pieces : List (List Char × String × Kind) :=
      [([], "x", .name), ("#;\n".toList, ":=", .reserved), ([' '], "do", .reserved)]
    let ts : Array Token := #[⟨"x", .name, ⟨1, 1⟩⟩, ⟨"do", .reserved, ⟨1, 3⟩⟩]
    let us : Array Token := #[⟨"x", .name, ⟨4, 2⟩⟩, ⟨"do", .reserved, ⟨6, 1⟩⟩]
    IsSpacing pieces "\n#".toList ∧ ts.map Token.key = us.map Token.key ∧
      (∃ ts, tokenize "x#;\n:= do\n#" = .ok ts ∧
        ts.toList.map Token.key = [("x", .name), (":=", .reserved), ("do", .reserved)]) ∧
      Grammar.run Grammar.program ts 0 = Grammar.run Grammar.program us 0 := by
  intro pieces ts us
  have hx : Kind.name.Spells "x" := ⟨⟨'x', [], rfl, rfl, nofun⟩, by decide⟩
  have hset : Kind.reserved.Spells ":=" := (by decide : ":=" ∈ Lexicon.reserved)
  have hdo : Kind.reserved.Spells "do" := (by decide : "do" ∈ Lexicon.reserved)
  have hcomment : IsGap "#;\n".toList := @IsGap.comment [';'] [] (by decide) .nil
  have hspacing : IsSpacing pieces "\n#".toList :=
    { spells := List.forall_mem_cons.mpr ⟨hx, List.forall_mem_cons.mpr ⟨hset, List.forall_mem_singleton.mpr hdo⟩⟩
      gaps := List.forall_mem_cons.mpr ⟨.nil, List.forall_mem_cons.mpr ⟨hcomment,
        List.forall_mem_singleton.mpr (.blank rfl .nil)⟩⟩
      inner := by decide
      last := Or.inr ⟨['\n'], [], .blank rfl .nil, by decide, rfl⟩ }
  have hkeys : ts.map Token.key = us.map Token.key := by simp [ts, us, Token.key]
  have htext : String.ofList (spaced "\n#".toList pieces) = "x#;\n:= do\n#" := by decide
  have htokens := layout_irrelevant.1 pieces _ hspacing
  rw [htext] at htokens
  exact ⟨hspacing, hkeys, htokens, (layout_irrelevant.2 ts us hkeys).1 _ 0⟩

end Imp.Program
