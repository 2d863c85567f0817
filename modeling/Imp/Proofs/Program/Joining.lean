import Imp.Proofs.Grammar.Keys
import Imp.Proofs.Program.Formatting
import Imp.Proofs.Token.Lines

/-! # Programs one behind the other

Two source texts with a semicolon on a line of its own between them are one. A newline ends whatever the
first text leaves open, so the tokens of the whole are those of the parts; the statements of the second
part come behind those of the first; and to run them is to run the one program and then the other. -/

namespace Imp

open Lexicon

theorem Lexicon.Splits.semicolon {s : List Char} {ks : List (String × Kind)} (h : Splits s ks) :
    Splits ('\n' :: ';' :: '\n' :: s) ((";", .reserved) :: ks) := by
  have hs : Separated ('\n' :: s) := Writes.separated_cons (by decide) (by decide)
  exact .blank (by decide) (.lexeme (k := .reserved) (x := ";") (by decide : ";" ∈ Lexicon.reserved) hs (.blank (by decide) h))

/-- The tokens of the joined text are, but for their places, those of the parts. -/
theorem tokenize_join {a b : String} {ts us : Array Token} (ha : tokenize a = .ok ts) (hb : tokenize b = .ok us) :
    ∃ vs, tokenize (a ++ "\n;\n" ++ b) = .ok vs ∧
      vs.toList.map Token.key = ts.toList.map Token.key ++ (";", .reserved) :: us.toList.map Token.key := by
  have hsa := tokenize_iff.mp ⟨ts, ha, rfl⟩
  have hsb := tokenize_iff.mp ⟨us, hb, rfl⟩
  refine tokenize_iff.mpr ?_
  have hall := hsa.append_newline hsb.semicolon
  simpa [String.toList_append] using hall

namespace Program

/-- The joined text is read as the statements of the second program behind those of the first. -/
theorem ofSource_join_eq_ok {a b : String} {s t : Stmt} (ha : ofSource a = .ok s) (hb : ofSource b = .ok t) :
    ofSource (a ++ "\n;\n" ++ b) = .ok (s.append t) := by
  obtain ⟨ts, hts, hs⟩ := ofSource_eq_ok.mp ha
  obtain ⟨us, hus, ht⟩ := ofSource_eq_ok.mp hb
  obtain ⟨vs, hvs, hkeys⟩ := tokenize_join hts hus
  obtain ⟨xs, semicolon, ys, hsplit, hxs, hsemicolon, hys⟩ := joined_of_keys hkeys
  refine ofSource_eq_ok.mpr ⟨vs, hvs, ?_⟩
  -- The tokens of the parts stand at other places now, but derive the same programs.
  rw [hsplit]
  exact (hs.of_keys hxs.symm).append hsemicolon (ht.of_keys hys.symm)

/-- To run two programs that are joined is to run the first and then, if that is done, the second in the
    environment that the first has left. -/
theorem ofSource_join {a b : String} {s t : Stmt} (ha : ofSource a = .ok s) (hb : ofSource b = .ok t) :
    ∃ u, ofSource (a ++ "\n;\n" ++ b) = .ok u ∧ ∀ limit e,
      (∀ o, u.Ends limit e o ↔ (∃ e', s.Ends limit e (.done e') ∧ t.Ends limit e' o) ∨
        ∃ f e', s.Ends limit e (.stopped f e') ∧ o = .stopped f e') ∧
      (u.Diverges limit e ↔ s.Diverges limit e ∨ ∃ e', s.Ends limit e (.done e') ∧ t.Diverges limit e') := by
  refine ⟨s.append t, ofSource_join_eq_ok ha hb, fun limit e => ⟨fun o => ?_, ?_⟩⟩
  · rw [Stmt.ends_append_iff, Stmt.ends_seq_iff]
  · rw [Stmt.diverges_append_iff, Stmt.diverges_seq_iff]

theorem ofSource_join_comment :
    ofSource "x:=1#" = .ok (.assign "x" (.const 1)) ∧ ofSource "y:=x" = .ok (.assign "y" (.var "x")) ∧
      ∃ u, ofSource ("x:=1#" ++ "\n;\n" ++ "y:=x") = .ok u ∧ u.Ends none .empty (.done (.ofList [("x", 1), ("y", 1)])) := by
  have ha : ofSource "x:=1#" = .ok (.assign "x" (.const 1)) :=
    ofSource_of_passes (.token rfl (.token rfl (.token rfl (.skip rfl .here)))) rfl
      (.single (.assign rfl ⟨rfl, rfl⟩ (.single (.term (.const rfl (by decide))))))
  have hb : ofSource "y:=x" = .ok (.assign "y" (.var "x")) :=
    ofSource_of_passes (.token rfl (.token rfl (.token rfl .here))) rfl
      (.single (.assign rfl ⟨rfl, rfl⟩ (.single (.term (.var rfl)))))
  obtain ⟨u, hu, hruns⟩ := ofSource_join ha hb
  exact ⟨ha, hb, u, hu, ((hruns none .empty).1 _).mpr (Or.inl ⟨.ofList [("x", 1)], ⟨0, by decide⟩, ⟨0, by decide⟩⟩)⟩

end Program

end Imp
