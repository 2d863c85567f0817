import Imp.Proofs.Grammar.LongestMatch
import Imp.Proofs.Printing.Numerals
import Imp.Proofs.Token.Splitting
import Imp.Syntax.Normal

/-! # Programs are in normal form

The leaves of a tree that tokens write are their names and the values of their numerals, and its
sequences nest to the left. The tokens of a source text have texts that their classes may have. So
every program is in normal form. -/

namespace Imp

/-- The names are identifiers and not reserved, and no constant is negative. -/
structure NormalLeaves (xs : List String) (ns : List Int64) : Prop where
  names : ∀ x ∈ xs, Kind.name.Spells x
  constants : ∀ n ∈ ns, 0 ≤ n

theorem NormalLeaves.append {xs ys : List String} {ns ms : List Int64} (h : NormalLeaves xs ns)
    (h' : NormalLeaves ys ms) : NormalLeaves (xs ++ ys) (ns ++ ms) :=
  ⟨List.forall_mem_append.mpr ⟨h.names, h'.names⟩, List.forall_mem_append.mpr ⟨h.constants, h'.constants⟩⟩

theorem Expr.Derives.leaves {l : Expr.Layer} {ts : List Token} {e : Expr} (h : Expr.Derives l ts e)
    (hv : ∀ t ∈ ts, t.kind.Spells t.text) : NormalLeaves e.names e.constants := by
  induction h with
  | @const t n hk hn =>
    have ht := hv t List.mem_cons_self
    rw [hk] at ht
    refine ⟨nofun, fun m hm => ?_⟩
    obtain rfl := List.mem_singleton.mp hm
    exact Numeral.nonneg_of_readInt64? ht hn
  | @var t hk =>
    have ht := hv t List.mem_cons_self
    rw [hk] at ht
    refine ⟨fun x hx => ?_, nofun⟩
    obtain rfl := List.mem_singleton.mp hx
    exact ht
  | group _ _ _ ih => exact ih fun t ht => hv t (by simp [ht])
  | term _ ih | single _ ih => exact ih hv
  | product _ _ _ _ iha ihb | sum _ _ _ _ iha ihb =>
    exact (iha fun t ht => hv t (by simp [ht])).append (ihb fun t ht => hv t (by simp [ht]))

theorem Cond.Derives.leaves {l : Cond.Layer} {ts : List Token} {c : Cond} (h : Cond.Derives l ts c)
    (hv : ∀ t ∈ ts, t.kind.Spells t.text) : NormalLeaves c.names c.constants := by
  induction h with
  | not _ _ ih | group _ _ _ ih => exact ih fun t ht => hv t (by simp [ht])
  | compare ha _ hb =>
    exact (ha.leaves fun t ht => hv t (by simp [ht])).append (hb.leaves fun t ht => hv t (by simp [ht]))
  | term _ ih | single _ ih => exact ih hv
  | and _ _ _ iha ihb | or _ _ _ iha ihb =>
    exact (iha fun t ht => hv t (by simp [ht])).append (ihb fun t ht => hv t (by simp [ht]))

theorem Stmt.Derives.leaves {l : Stmt.Layer} {ts : List Token} {s : Stmt} (h : Stmt.Derives l ts s)
    (hv : ∀ t ∈ ts, t.kind.Spells t.text) : NormalLeaves s.names s.constants := by
  induction h with
  | @assign x t ts e hk _ he =>
    have hx := hv x List.mem_cons_self
    rw [hk] at hx
    have hname : NormalLeaves [x.text] [] := ⟨fun y hy => List.mem_singleton.mp hy ▸ hx, nofun⟩
    exact hname.append (he.leaves fun t ht => hv t (by simp [ht]))
  | «when» _ hc _ _ _ ih | loop _ hc _ _ _ ih =>
    exact (hc.leaves fun t ht => hv t (by simp [ht])).append (ih fun t ht => hv t (by simp [ht]))
  | branch _ hc _ _ _ _ _ ihs ihu =>
    exact ((hc.leaves fun t ht => hv t (by simp [ht])).append (ihs fun t ht => hv t (by simp [ht]))).append
      (ihu fun t ht => hv t (by simp [ht]))
  | single _ ih => exact ih hv
  | seq _ _ _ iha ihb =>
    exact (iha fun t ht => hv t (by simp [ht])).append (ihb fun t ht => hv t (by simp [ht]))

theorem Stmt.Derives.not_isSeq {ts : List Token} {s : Stmt} (h : Stmt.Derives .single ts s) : s.isSeq = false := by
  cases h <;> rfl

theorem Stmt.Derives.nestsLeft {l : Stmt.Layer} {ts : List Token} {s : Stmt} (h : Stmt.Derives l ts s) : s.NestsLeft := by
  induction h with
  | assign => trivial
  | «when» _ _ _ _ _ ih | loop _ _ _ _ _ ih => exact ih
  | branch _ _ _ _ _ _ _ ihs ihu => exact ⟨ihs, ihu⟩
  | single _ ih => exact ih
  | seq _ _ hb iha ihb => exact ⟨iha, ihb, hb.not_isSeq⟩

theorem Program.ofSource_eq_ok {source : String} {s : Stmt} :
    ofSource source = .ok s ↔ ∃ ts, tokenize source = .ok ts ∧ Stmt.Derives .block ts.toList s := by
  unfold ofSource
  constructor
  · intro h
    cases hts : tokenize source with
    | error err =>
      rw [hts] at h
      cases h
    | ok ts =>
      rw [hts] at h
      exact ⟨ts, rfl, ofTokens_eq_ok.mp h⟩
  · rintro ⟨ts, hts, hd⟩
    rw [hts]
    exact ofTokens_eq_ok.mpr hd

/-- The program of a source text is in normal form. -/
theorem Program.isNormal {source : String} {s : Stmt} (h : ofSource source = .ok s) : s.IsNormal := by
  obtain ⟨ts, hts, hd⟩ := ofSource_eq_ok.mp h
  have hleaves := hd.leaves (spells_of_tokenize hts)
  exact ⟨hleaves.names, hleaves.constants, hd.nestsLeft⟩

end Imp
