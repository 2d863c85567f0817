import Imp.Proofs.Token.Splitting
import Imp.Token.Layout

/-! # Texts with gaps between them

A gap is skipped, however it is put together, and where one begins every lexeme ends. So texts with gaps
between them split into just these texts: neither the choice of the gaps nor the texts that stand next to
one another make a difference. -/

namespace Imp

namespace Lexicon

variable {g s cs rest : List Char} {ks : List (String × Kind)}

/-! ### Gaps are skipped -/

/-- A comment goes on up to the end of its line. -/
theorem firstMatch?_comment (hcs : '\n' ∉ cs) (hr : ∀ c ∈ rest.head?, c = '\n') :
    firstMatch? ('#' :: cs ++ rest) = some (⟨.comment, none⟩, cs.length + 1) := by
  have hline : (cs ++ rest).takeWhile (· ≠ '\n') = cs := by
    refine takeWhile_append_of_head (fun c hc => ?_) fun c hc => ?_
    · exact decide_eq_true fun h => hcs (h ▸ hc)
    · rw [hr c hc]
      rfl
  have hblank : Pattern.blanks.matchLength? ('#' :: (cs ++ rest)) = none := Pattern.matchLength?_eq_none rfl
  have hcomment : Pattern.comment.matchLength? ('#' :: (cs ++ rest)) = some (cs.length + 1) := by
    rw [Pattern.matchLength?, hline]
  simp only [firstMatch?, rules, List.cons_append, List.findSome?_cons, hblank, hcomment, Option.map_none,
    Option.map_some]

theorem Splits.comment (hcs : '\n' ∉ cs) (hr : ∀ c ∈ rest.head?, c = '\n') (h : Splits rest ks) :
    Splits ('#' :: cs ++ rest) ks := by
  refine .skip (firstMatch?_comment hcs hr) ?_
  rwa [List.cons_append, List.drop_succ_cons, List.drop_left]

theorem Splits.gap (hg : IsGap g) (h : Splits s ks) : Splits (g ++ s) ks := by
  induction hg with
  | nil => exact h
  | blank hc _ ih => exact .blank hc ih
  | @comment cs g hcs _ ih =>
    rw [List.append_assoc, List.cons_append]
    exact .comment hcs (fun c hc => (Option.some.inj hc).symm) (.blank rfl ih)

theorem splits_of_isFinalGap (hg : IsFinalGap g) : Splits g [] := by
  rcases hg with hg | ⟨g, cs, hg, hcs, rfl⟩
  · have h := Splits.gap hg .nil
    rwa [List.append_nil] at h
  · have h : Splits ('#' :: cs ++ []) [] := .comment hcs (fun c hc => nomatch hc) .nil
    rw [List.append_nil] at h
    exact .gap hg h

/-! ### Lexemes end at gaps -/

theorem separated_of_isBlank {c : Char} (hc : Pattern.isBlank c) : Separated (c :: s) := by
  intro d hd
  cases hd
  simp only [Pattern.isBlank, Bool.or_eq_true, decide_eq_true_eq] at hc
  rcases hc with ((rfl | rfl) | rfl) | rfl <;> decide

theorem separated_of_comment : Separated ('#' :: s) := by
  intro d hd
  cases hd
  decide

theorem separated_gap (hg : IsGap g) (hs : g = [] → Separated s) : Separated (g ++ s) := by
  cases hg with
  | nil => exact hs rfl
  | blank hc _ => exact separated_of_isBlank hc
  | comment _ _ => exact separated_of_comment

theorem separated_of_isFinalGap (hg : IsFinalGap g) : Separated g := by
  rcases hg with hg | ⟨g, cs, hg, -, rfl⟩
  · have h := separated_gap (s := []) hg fun _ => (fun c hc => nomatch hc)
    rwa [List.append_nil] at h
  · exact separated_gap hg fun _ => separated_of_comment

end Lexicon

namespace IsSpacing

open Lexicon

variable {last : List Char} {p : List Char × String × Kind} {l : List (List Char × String × Kind)}

theorem of_cons (h : IsSpacing (p :: l) last) : IsSpacing l last where
  spells := fun q hq => h.spells q (List.mem_cons_of_mem p hq)
  gaps := fun q hq => h.gaps q (List.mem_cons_of_mem p hq)
  inner := fun q hq => h.inner q (List.mem_of_mem_tail hq)
  last := h.last

/-- Behind the first text every lexeme ends. -/
theorem separated (h : IsSpacing (p :: l) last) : Separated (spaced last l) := by
  cases l with
  | nil => exact separated_of_isFinalGap h.last
  | cons q l =>
    have hne := h.inner q List.mem_cons_self
    have hq := separated_gap (s := q.2.1.toList ++ spaced last l) (h.gaps q (by simp)) fun hnil => absurd hnil hne
    rwa [← List.append_assoc] at hq

theorem splits (h : IsSpacing l last) : Splits (spaced last l) (l.map Prod.snd) := by
  induction l with
  | nil => exact splits_of_isFinalGap h.last
  | cons p l ih =>
    have hlexeme := (ih h.of_cons).lexeme (h.spells p List.mem_cons_self) h.separated
    have hgap := hlexeme.gap (h.gaps p List.mem_cons_self)
    rwa [← List.append_assoc] at hgap

/-- Texts with gaps between them are scanned as these texts. -/
theorem tokenize (h : IsSpacing l last) :
    ∃ ts, Imp.tokenize (String.ofList (spaced last l)) = .ok ts ∧ ts.toList.map Token.key = l.map Prod.snd := by
  refine tokenize_iff.mpr ?_
  rw [String.toList_ofList]
  exact h.splits

end IsSpacing

end Imp
