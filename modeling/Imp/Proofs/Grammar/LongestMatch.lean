import Imp.Proofs.Grammar.Statements
import Imp.Program

/-! # The grammar reads the longest piece

Every production reads what it derives. The runs of the productions call one another behind a token
only, and each such call has less fuel and fewer tokens left; so the induction is on the fuel, and the
fuel that a run of the grammar begins with is enough at every position.

It follows that the productions are unambiguous, and that the tokens of a program are exactly those
that derive a list of statements. -/

namespace Imp

namespace Production

variable {n : Production} {seg : List Token} {v : n.Value}

theorem ne_nil (h : n.Derives seg v) : seg ≠ [] := by
  cases n with
  | expr => exact Expr.Derives.ne_nil h
  | cond | condTerm => exact Cond.Derives.ne_nil h
  | block => exact Stmt.Derives.ne_nil h

end Production

namespace Grammar

variable {ts : Array Token}

theorem productions_read {called : (n : Production) → Nat → Answer n.Value} {fuel pos : Nat} (hc : CallsRead ts called pos)
    (hf : ts.size < pos + fuel) (n : Production) :
    Reads ts n.Derives n.GoesOn ((productions n).runWith ts called fuel) pos := by
  cases n with
  | expr => exact expr_reads hc hf
  | cond => exact cond_reads hc hf
  | condTerm => exact condTerm_reads hc hf
  | block => exact block_reads hc hf

theorem runCall_reads {fuel : Nat} (n : Production) {pos : Nat} (hle : pos ≤ ts.size) (hf : ts.size + 2 ≤ pos + fuel) :
    Reads ts n.Derives n.GoesOn (Parser.runCall productions ts fuel n) pos := by
  induction fuel generalizing n pos with
  | zero => omega
  | succ fuel ih =>
    have hc : CallsRead ts (Parser.runCall productions ts fuel) pos := fun m p hp hp' => ih m hp' (by omega)
    exact productions_read hc (by omega) n

theorem callsRead (ts : Array Token) (pos : Nat) :
    CallsRead ts (Parser.runCall productions ts (ts.size - pos + 2)) pos :=
  fun n _ hp hp' => runCall_reads n hp' (by omega)

/-- At every position, the run of a production reads what it derives. -/
theorem run_reads (ts : Array Token) (n : Production) (pos : Nat) :
    Reads ts n.Derives n.GoesOn (run (productions n) ts) pos :=
  have h := productions_read (callsRead ts pos) (by omega : ts.size < pos + (ts.size - pos + 2)) n
  ⟨h.finished, h.sound, h.exact, h.longest⟩

/-! ### Unambiguity -/

theorem derives_unique {n : Production} {seg : List Token} {v w : n.Value} (hv : n.Derives seg v) (hw : n.Derives seg w) :
    v = w :=
  (run_reads seg.toArray n 0).unique Production.ne_nil hv hw

end Grammar

theorem Expr.Derives.loosest {l : Expr.Layer} {seg : List Token} {e : Expr} (h : Expr.Derives l seg e) :
    Expr.Derives .sum seg e := by
  cases l with
  | term => exact .single (.term h)
  | product => exact .single h
  | sum => exact h

theorem Cond.Derives.loosest {l : Cond.Layer} {seg : List Token} {c : Cond} (h : Cond.Derives l seg c) :
    Cond.Derives .disjunction seg c := by
  cases l with
  | term => exact .single (.term h)
  | conjunction => exact .single h
  | disjunction => exact h

theorem Stmt.Derives.loosest {l : Stmt.Layer} {seg : List Token} {s : Stmt} (h : Stmt.Derives l seg s) :
    Stmt.Derives .block seg s := by
  cases l with
  | single => exact .single h
  | block => exact h

/-- The tokens of an expression write no other one, in whatever layers. -/
theorem Expr.Derives.unique {l l' : Expr.Layer} {seg : List Token} {a b : Expr} (ha : Expr.Derives l seg a)
    (hb : Expr.Derives l' seg b) : a = b :=
  Grammar.derives_unique (n := .expr) ha.loosest hb.loosest

theorem Cond.Derives.unique {l l' : Cond.Layer} {seg : List Token} {a b : Cond} (ha : Cond.Derives l seg a)
    (hb : Cond.Derives l' seg b) : a = b :=
  Grammar.derives_unique (n := .cond) ha.loosest hb.loosest

theorem Stmt.Derives.unique {l l' : Stmt.Layer} {seg : List Token} {a b : Stmt} (ha : Stmt.Derives l seg a)
    (hb : Stmt.Derives l' seg b) : a = b :=
  Grammar.derives_unique (n := .block) ha.loosest hb.loosest

namespace Grammar

/-! ### Programs -/

theorem run_program_eq (ts : Array Token) (pos : Nat) : run program ts pos = (run block ts pos).endingAt ts.size := rfl

/-- The tokens of a program are those that derive a list of statements. -/
theorem run_program_eq_success {s : Stmt} {q : Nat} :
    run program ts 0 = .success s q ↔ q = ts.size ∧ Stmt.Derives .block ts.toList s := by
  have h := run_reads ts .block 0
  rw [run_program_eq, Answer.endingAt_eq_success]
  constructor
  · rintro ⟨hrun, rfl⟩
    obtain ⟨seg, hst, hq, hd⟩ := h.sound hrun
    have hst' : Stands ts 0 ts.toList := by simp [Stands]
    have hsize : ts.toList.length = ts.size := Array.length_toList
    obtain rfl := hst.eq_of_length hst' (by omega)
    exact ⟨rfl, hd⟩
  · rintro ⟨rfl, hd⟩
    have hsize : 0 + ts.toList.length = ts.size := by rw [Array.length_toList, Nat.zero_add]
    have hrun : run block ts 0 = .success s (0 + ts.toList.length) :=
      h.exact hd (by simp [Stands]) fun t ht => by
        rw [hsize, Array.getElem?_size] at ht
        cases ht
    exact ⟨hsize ▸ hrun, rfl⟩

end Grammar

theorem Program.ofTokens_eq_ok {ts : Array Token} {s : Stmt} :
    Program.ofTokens ts = .ok s ↔ Stmt.Derives .block ts.toList s := by
  unfold Program.ofTokens
  by_cases he : ts.isEmpty = true
  · rw [if_pos he]
    refine ⟨nofun, fun hd => absurd ?_ hd.ne_nil⟩
    rw [Array.toList_eq_nil_iff]
    exact Array.isEmpty_iff.mp he
  · rw [if_neg he]
    constructor
    · intro h
      split at h
      · next hrun =>
        cases h
        exact (Grammar.run_program_eq_success.mp hrun).2
      · cases h
    · intro hd
      rw [Grammar.run_program_eq_success.mpr ⟨rfl, hd⟩]

namespace Grammar

/-! ### The grammar -/

/-- At every position of any tokens, each production gives the longest piece there that it derives, and
    fails exactly where it derives none. No tokens derive two trees, in whatever layers; and a program
    is what takes all tokens. -/
theorem run_longest (ts : Array Token) (pos : Nat) :
    (∀ n v q, run (productions n) ts pos = .success v q ↔ IsLongest ts n.Derives pos v q) ∧
    (∀ n, run (productions n) ts pos = .failure ↔ DerivesNothing ts n.Derives pos) ∧
    (∀ l l' seg a b, Expr.Derives l seg a → Expr.Derives l' seg b → a = b) ∧
    (∀ l l' seg a b, Cond.Derives l seg a → Cond.Derives l' seg b → a = b) ∧
    (∀ l l' seg a b, Stmt.Derives l seg a → Stmt.Derives l' seg b → a = b) ∧
    (∀ s, (∃ q, run program ts 0 = .success s q) ↔ Stmt.Derives .block ts.toList s) := by
  refine ⟨fun n v q => ?_, fun n => ?_, fun l l' seg a b ha hb => ha.unique hb, fun l l' seg a b ha hb => ha.unique hb,
    fun l l' seg a b ha hb => ha.unique hb, fun s => ?_⟩
  · exact (run_reads ts n pos).success_iff Production.ne_nil
  · exact (run_reads ts n pos).failure_iff Production.ne_nil
  · simp only [run_program_eq_success, exists_eq_left]

end Grammar

end Imp
