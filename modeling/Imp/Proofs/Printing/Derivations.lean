import Imp.Proofs.Printing.Lexemes
import Imp.Proofs.Printing.NormalForm

/-! # The trees that lexemes write

The lexemes of a tree without negative constants write that tree, with its sequences nested to the
left. A negative constant cannot be written: a minus sign is only ever an operator between operands, so
it stands behind a numeral, a name or a closed parenthesis, and the minus sign of a constant never
does. -/

namespace Imp

open Lexicon

theorem Token.is_iff {t : Token} {text : String} : t.Is text ↔ t.key = (text, .reserved) := by
  simp [Token.Is, Token.key]

/-! ### Trees without negative constants -/

section

variable {ts us : List Token} {t : Token}

/-- Two terms with an operator between them. -/
theorem Expr.Derives.binary {op : Operator} {a b : Expr} (ha : Expr.Derives .term ts a) (ht : t.Is op.symbol)
    (hb : Expr.Derives .term us b) : Expr.Derives .sum (ts ++ t :: us) (.binary op a b) := by
  cases op with
  | mul => exact .single (.product (Or.inl rfl) (.term ha) ht hb)
  | div => exact .single (.product (Or.inr rfl) (.term ha) ht hb)
  | add => exact .sum (Or.inl rfl) (.single (.term ha)) ht (.term hb)
  | sub => exact .sum (Or.inr rfl) (.single (.term ha)) ht (.term hb)

/-- The tokens with these lexemes between two reserved texts. -/
theorem enclosed_of_keys {ks : List (String × Kind)} {opening closing : String}
    (h : ts.map Token.key = (opening, .reserved) :: ks ++ [(closing, .reserved)]) :
    ∃ l us r, ts = l :: us ++ [r] ∧ l.Is opening ∧ us.map Token.key = ks ∧ r.Is closing := by
  rw [List.cons_append] at h
  obtain ⟨l, vs, rfl, hl, hvs⟩ := List.map_eq_cons_iff.mp h
  obtain ⟨us, ws, rfl, hus, hws⟩ := List.map_eq_append_iff.mp hvs
  obtain ⟨r, rfl, hr⟩ := List.map_eq_singleton_iff.mp hws
  exact ⟨l, us, r, rfl, Token.is_iff.mpr hl, hus, Token.is_iff.mpr hr⟩

/-- The tokens with these lexemes and a reserved text between them. -/
theorem joined_of_keys {ks ks' : List (String × Kind)} {text : String}
    (h : ts.map Token.key = ks ++ (text, .reserved) :: ks') :
    ∃ us t ws, ts = us ++ t :: ws ∧ us.map Token.key = ks ∧ t.Is text ∧ ws.map Token.key = ks' := by
  obtain ⟨us, vs, rfl, hus, hvs⟩ := List.map_eq_append_iff.mp h
  obtain ⟨t, ws, rfl, ht, hws⟩ := List.map_eq_cons_iff.mp hvs
  exact ⟨us, t, ws, rfl, hus, Token.is_iff.mpr ht, hws⟩

end

theorem Expr.derives_of_lexemes {e : Expr} (hc : ∀ n ∈ e.constants, 0 ≤ n) {ts : List Token}
    (h : ts.map Token.key = e.lexemes) : Expr.Derives .term ts e := by
  induction e generalizing ts with
  | const n =>
    have hn : 0 ≤ n := hc n (by simp [constants])
    rw [lexemes, if_neg (Int64.not_lt.mpr hn)] at h
    obtain ⟨t, rfl, ht⟩ := List.map_eq_singleton_iff.mp h
    obtain ⟨htext, hkind⟩ := Prod.mk.inj ht
    exact .const hkind (by rw [htext, Numeral.readInt64?_repr hn])
  | var x =>
    obtain ⟨t, rfl, ht⟩ := List.map_eq_singleton_iff.mp h
    obtain ⟨rfl, hkind⟩ := Prod.mk.inj ht
    exact .var hkind
  | binary op a b iha ihb =>
    obtain ⟨ha, hb⟩ := List.forall_mem_append.mp hc
    rw [lexemes, List.cons_append] at h
    obtain ⟨l, us, r, rfl, hl, hus, hr⟩ := enclosed_of_keys h
    obtain ⟨vs, t, ws, rfl, hvs, ht, hws⟩ := joined_of_keys hus
    exact .group hl ((iha ha hvs).binary ht (ihb hb hws)) hr

theorem Cond.derives_of_lexemes {c : Cond} (hc : ∀ n ∈ c.constants, 0 ≤ n) {ts : List Token}
    (h : ts.map Token.key = c.lexemes) : Cond.Derives .term ts c := by
  induction c generalizing ts with
  | compare op a b =>
    obtain ⟨ha, hb⟩ := List.forall_mem_append.mp hc
    obtain ⟨us, t, ws, rfl, hus, ht, hws⟩ := joined_of_keys h
    exact .compare (Expr.derives_of_lexemes ha hus).loosest ht (Expr.derives_of_lexemes hb hws).loosest
  | and a b iha ihb =>
    obtain ⟨ha, hb⟩ := List.forall_mem_append.mp hc
    rw [lexemes, List.cons_append] at h
    obtain ⟨l, us, r, rfl, hl, hus, hr⟩ := enclosed_of_keys h
    obtain ⟨vs, t, ws, rfl, hvs, ht, hws⟩ := joined_of_keys hus
    exact .group hl (.single (.and (.term (iha ha hvs)) ht (ihb hb hws))) hr
  | or a b iha ihb =>
    obtain ⟨ha, hb⟩ := List.forall_mem_append.mp hc
    rw [lexemes, List.cons_append] at h
    obtain ⟨l, us, r, rfl, hl, hus, hr⟩ := enclosed_of_keys h
    obtain ⟨vs, t, ws, rfl, hvs, ht, hws⟩ := joined_of_keys hus
    exact .group hl (.or (iha ha hvs).loosest ht (.term (ihb hb hws))) hr
  | not c ih =>
    obtain ⟨t, us, rfl, ht, hus⟩ := List.map_eq_cons_iff.mp h
    exact .not (Token.is_iff.mpr ht) (ih hc hus)

/-! ### Lists of statements -/

namespace Stmt

theorem append_of_not_isSeq {s t : Stmt} (h : t.isSeq = false) : s.append t = seq s t := by
  cases t with
  | seq => cases h
  | _ => rfl

/-- Two lists of statements with a semicolon between them are one. -/
theorem Derives.append {ts us : List Token} {t : Token} {a b : Stmt} (ha : Derives .block ts a) (ht : t.Is ";")
    (hb : Derives .block us b) : Derives .block (ts ++ t :: us) (a.append b) := by
  generalize hl : Layer.block = l at hb
  induction hb with
  | single hb =>
    rw [append_of_not_isSeq hb.not_isSeq]
    exact .seq ha ht hb
  | seq _ ht' hu ih _ =>
    rw [← List.cons_append, ← List.append_assoc]
    exact .seq (ih hl) ht' hu
  | _ => cases hl

theorem derives_of_lexemes {s : Stmt} (hc : ∀ n ∈ s.constants, 0 ≤ n) {ts : List Token}
    (h : ts.map Token.key = s.lexemes) : Derives .block ts s.nestLeft := by
  induction s generalizing ts with
  | assign x e =>
    obtain ⟨y, us, rfl, hy, hus⟩ := List.map_eq_cons_iff.mp h
    obtain ⟨t, ws, rfl, ht, hws⟩ := List.map_eq_cons_iff.mp hus
    obtain ⟨rfl, hkind⟩ := Prod.mk.inj hy
    exact .single (.assign hkind (Token.is_iff.mpr ht) (Expr.derives_of_lexemes hc hws).loosest)
  | seq a b iha ihb =>
    obtain ⟨ha, hb⟩ := List.forall_mem_append.mp hc
    obtain ⟨us, t, ws, rfl, hus, ht, hws⟩ := joined_of_keys h
    exact (iha ha hus).append ht (ihb hb hws)
  | «when» c s ih =>
    obtain ⟨hcond, hs⟩ := List.forall_mem_append.mp hc
    rw [lexemes, List.cons_append] at h
    obtain ⟨i, us, f, rfl, hi, hus, hf⟩ := enclosed_of_keys h
    obtain ⟨vs, t, ws, rfl, hvs, ht, hws⟩ := joined_of_keys hus
    exact .single (.when hi (Cond.derives_of_lexemes hcond hvs).loosest ht (ih hs hws) hf)
  | branch c s u ihs ihu =>
    obtain ⟨hcs, hu⟩ := List.forall_mem_append.mp hc
    obtain ⟨hcond, hs⟩ := List.forall_mem_append.mp hcs
    rw [lexemes, List.cons_append, List.cons_append] at h
    obtain ⟨i, us, f, rfl, hi, hus, hf⟩ := enclosed_of_keys h
    obtain ⟨vs, l, ws, rfl, hvs, hl, hws⟩ := joined_of_keys hus
    obtain ⟨cs, t, ss, rfl, hcs, ht, hss⟩ := joined_of_keys hvs
    exact .single (.branch hi (Cond.derives_of_lexemes hcond hcs).loosest ht (ihs hs hss) hl (ihu hu hws) hf)
  | loop c s ih =>
    obtain ⟨hcond, hs⟩ := List.forall_mem_append.mp hc
    rw [lexemes, List.cons_append] at h
    obtain ⟨w, us, f, rfl, hw, hus, hf⟩ := enclosed_of_keys h
    obtain ⟨vs, d, ws, rfl, hvs, hd, hws⟩ := joined_of_keys hus
    exact .single (.loop hw (Cond.derives_of_lexemes hcond hvs).loosest hd (ih hs hws) hf)

end Stmt

end Imp
