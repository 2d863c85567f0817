import Imp.Proofs.Grammar.LongestMatch

/-! # Parsers look at keys

A parser sees of a token its text and its kind, never its place. So on tokens that agree in these, every
parser has the same answers, and they derive the same trees. -/

namespace Imp

namespace Parser

variable {ν : Type} {ty : ν → Type} {α : Type} {ts us : Array Token}

theorem getElem?_key (h : ts.map Token.key = us.map Token.key) (pos : Nat) :
    (ts[pos]?).map Token.key = (us[pos]?).map Token.key := by
  rw [← Array.getElem?_map, h, Array.getElem?_map]

theorem size_eq_of_keys (h : ts.map Token.key = us.map Token.key) : ts.size = us.size := by
  rw [← Array.size_map (f := Token.key), h, Array.size_map]

theorem take_congr (h : ts.map Token.key = us.map Token.key) (accepts : String × Kind → Bool) (pos : Nat) :
    take ts (fun t => accepts t.key) pos = take us (fun t => accepts t.key) pos := by
  have hkey := getElem?_key h pos
  unfold take
  cases ht : ts[pos]? with
  | none =>
    rw [ht, Option.map_none, eq_comm, Option.map_eq_none_iff] at hkey
    rw [hkey]
  | some t =>
    rw [ht, Option.map_some, eq_comm, Option.map_eq_some_iff] at hkey
    obtain ⟨u, hu, hut⟩ := hkey
    have htext : u.text = t.text := congrArg Prod.fst hut
    simp only [hu, hut, htext]

theorem runWith_congr (h : ts.map Token.key = us.map Token.key) (called : (n : ν) → Nat → Answer (ty n)) (fuel : Nat)
    (p : Parser ty α) : p.runWith ts called fuel = p.runWith us called fuel := by
  induction p with
  | token text kind => exact funext (take_congr h fun k => k.1 = text ∧ k.2 = kind)
  | ofKind kind => exact funext (take_congr h fun k => k.2 = kind)
  | fail => rfl
  | call n => rfl
  | opt p ih | rep p ih | map f p ih | filterMap f p ih => simp only [runWith, ih]
  | seq p q ihp ihq | alt p q ihp ihq | chainLeft p q ihp ihq => simp only [runWith, ihp, ihq]
  | phrase p ih => simp only [runWith, ih, size_eq_of_keys h]

theorem runCall_congr (h : ts.map Token.key = us.map Token.key) (defs : Family ty) (fuel : Nat) :
    runCall defs ts fuel = runCall defs us fuel := by
  induction fuel with
  | zero => rfl
  | succ fuel ih =>
    funext n pos
    rw [runCall, runCall, ih, runWith_congr h]

theorem run_congr (h : ts.map Token.key = us.map Token.key) (defs : Family ty) (fuel : Nat) (p : Parser ty α) :
    p.run defs ts fuel = p.run defs us fuel := by
  funext pos
  rw [run, run, runCall_congr h, runWith_congr h]

end Parser

theorem Grammar.run_congr {α : Type} {ts us : Array Token} (h : ts.map Token.key = us.map Token.key) (p : Rule α) :
    Grammar.run p ts = Grammar.run p us := by
  funext pos
  rw [Grammar.run, Grammar.run, Parser.run_congr h, Parser.size_eq_of_keys h]

/-- Tokens with the same texts and kinds derive the same programs. -/
theorem Stmt.Derives.of_keys {ts us : List Token} {s : Stmt} (h : ts.map Token.key = us.map Token.key)
    (hd : Stmt.Derives .block ts s) : Stmt.Derives .block us s := by
  have hrun : Grammar.run Grammar.program ts.toArray = Grammar.run Grammar.program us.toArray :=
    Grammar.run_congr (by simp [h]) _
  have hts : Grammar.run Grammar.program ts.toArray 0 = .success s ts.length :=
    Grammar.run_program_eq_success.mpr ⟨List.size_toArray.symm, hd⟩
  rw [hrun] at hts
  exact (Grammar.run_program_eq_success.mp hts).2

end Imp
