import Imp.Parser.Reordered
import Imp.Proofs.Parser.Fuel

/-! # The order of exclusive alternatives does not matter

A choice answers as the first of its alternatives that does not fail. Where all of them but one fail, that is the
same one in every order, so a parser with exclusive alternatives answers as before when they are reordered, and its
alternatives are still exclusive. The analysis of a parser does not see the order at all.

When the definitions of a family are reordered as well, then what the old definitions answer is also what the new ones
ask of one another. So each finished run of the new family gives an answer of the old one, and runs with enough fuel
are finished. -/

namespace Imp

/-! ### The first answer that is no failure -/

namespace Answer

variable {α : Type} {a b c : Answer α} {as bs : List (Answer α)}

theorem OneFails.symm (h : a.OneFails b) : b.OneFails a := Or.symm h

theorem oneFails_of_finished (ha : a ≠ .unfinished) (hb : b ≠ .unfinished)
    (h : ∀ v i w j, a = .success v i → b ≠ .success w j) : a.OneFails b := by
  cases a with
  | unfinished => exact absurd rfl ha
  | failure => exact Or.inl rfl
  | success v i => exact Or.inr (eq_failure_of_finished hb fun w j => h v i w j rfl)

theorem eq_of_iff (hs : ∀ v q, a = .success v q ↔ b = .success v q) (hf : a = .failure ↔ b = .failure) : a = b := by
  cases a with
  | success v q => exact ((hs v q).mp rfl).symm
  | failure => exact (hf.mp rfl).symm
  | unfinished =>
    cases b with
    | unfinished => rfl
    | failure => exact hf.mpr rfl
    | success v q => exact (hs v q).mpr rfl

/-- The first answer of a list that is no failure. -/
def first (as : List (Answer α)) : Answer α := as.foldr (fun a rest => a.orElse fun _ => rest) .failure

theorem orElse_assoc : ((a.orElse fun _ => b).orElse fun _ => c) = a.orElse fun _ => b.orElse fun _ => c := by
  cases a <;> rfl

theorem orElse_failure : (a.orElse fun _ => .failure) = a := by
  cases a <;> rfl

theorem orElse_comm (h : a.OneFails b) : (a.orElse fun _ => b) = b.orElse fun _ => a := by
  rcases h with rfl | rfl
  · exact orElse_failure.symm
  · exact orElse_failure

theorem orElse_eq_failure : (a.orElse fun _ => b) = .failure ↔ a = .failure ∧ b = .failure := by
  cases a <;> simp [orElse]

theorem first_append : first (as ++ bs) = (first as).orElse fun _ => first bs := by
  induction as with
  | nil => rfl
  | cons a as ih =>
    show (a.orElse fun _ => first (as ++ bs)) = (a.orElse fun _ => first as).orElse fun _ => first bs
    rw [ih, orElse_assoc]

theorem first_eq_failure : first as = .failure ↔ ∀ a ∈ as, a = .failure := by
  induction as with
  | nil => simp [first]
  | cons a as ih =>
    show (a.orElse fun _ => first as) = .failure ↔ _
    rw [orElse_eq_failure, ih, List.forall_mem_cons]

/-- Two lists have first answers of which one fails exactly if no two answers, one of each list, do without one. -/
theorem oneFails_first : (first as).OneFails (first bs) ↔ ∀ a ∈ as, ∀ b ∈ bs, a.OneFails b := by
  unfold OneFails
  rw [first_eq_failure, first_eq_failure]
  constructor
  · rintro (h | h) a ha b hb
    · exact Or.inl (h a ha)
    · exact Or.inr (h b hb)
  · intro h
    by_cases has : ∀ a ∈ as, a = .failure
    · exact Or.inl has
    · push Not at has
      obtain ⟨a, ha, hne⟩ := has
      exact Or.inr fun b hb => (h a ha b hb).resolve_left hne

/-- Of answers of which all but one fail, the order does not matter. -/
theorem first_perm (h : as.Perm bs) (hx : as.Pairwise OneFails) : first as = first bs := by
  induction h with
  | nil => rfl
  | cons a _ ih =>
    have hrest := ih (List.pairwise_cons.mp hx).2
    show (a.orElse fun _ => first _) = a.orElse fun _ => first _
    rw [hrest]
  | swap a b as =>
    have hba : b.OneFails a := (List.pairwise_cons.mp hx).1 a List.mem_cons_self
    show (b.orElse fun _ => a.orElse fun _ => first as) = a.orElse fun _ => b.orElse fun _ => first as
    rw [← orElse_assoc, orElse_comm hba, orElse_assoc]
  | trans hab _ ih ih' => exact (ih hx).trans (ih' (hx.perm hab OneFails.symm))

end Answer

namespace Parser

variable {ν : Type} {ty : ν → Type} {α β : Type} {defs defs' : Family ty} {ts : Array Token} {p q : Parser ty α} {pos : Nat}

/-! ### Alternatives -/

theorem answer_eq_first (p : Parser ty α) : answer defs ts p pos = .first (p.alternatives.map (answer defs ts · pos)) := by
  induction p with
  | alt p q ihp ihq => rw [answer_alt, ihp, ihq, alternatives, List.map_append, Answer.first_append]
  | _ => exact Answer.orElse_failure.symm

/-- What holds of a choice if it holds of either side of it, holds of one of the alternatives. -/
theorem exists_alternatives_iff {P : Parser ty α → Prop} (hP : ∀ p q, P (alt p q) ↔ P p ∨ P q) (p : Parser ty α) :
    P p ↔ ∃ a ∈ p.alternatives, P a := by
  induction p with
  | alt p q ihp ihq =>
    rw [hP, ihp hP, ihq hP, alternatives]
    simp only [List.mem_append, or_and_right, exists_or]
  | _ => simp [alternatives]

theorem loopsAdvance_iff_alternatives (p : Parser ty α) :
    LoopsAdvance defs p ↔ ∀ a ∈ p.alternatives, LoopsAdvance defs a := by
  induction p with
  | alt p q ihp ihq => rw [LoopsAdvance, ihp, ihq, alternatives, List.forall_mem_append]
  | _ => simp [alternatives]

theorem exclusive_iff (p : Parser ty α) : Exclusive defs ts p ↔ (∀ a ∈ p.alternatives, Exclusive defs ts a) ∧
    ∀ pos, (p.alternatives.map (answer defs ts · pos)).Pairwise Answer.OneFails := by
  induction p with
  | alt p q ihp ihq =>
    simp only [Exclusive, ihp, ihq, alternatives, List.map_append, List.pairwise_append, List.forall_mem_append,
      answer_eq_first p, answer_eq_first q, Answer.oneFails_first]
    exact ⟨fun ⟨⟨ha, hx⟩, ⟨hb, hy⟩, hxy⟩ => ⟨⟨ha, hb⟩, fun pos => ⟨hx pos, hy pos, hxy pos⟩⟩,
      fun ⟨⟨ha, hb⟩, h⟩ => ⟨⟨ha, fun pos => (h pos).1⟩, ⟨hb, fun pos => (h pos).2.1⟩, fun pos => (h pos).2.2⟩⟩
  | _ => simp [alternatives]

/-! ### Answers of reordered parsers -/

theorem answer_rep_congr (h : answer defs ts p = answer defs ts q) : answer defs ts (rep p) = answer defs ts (rep q) := by
  funext pos
  refine Answer.eq_of_iff (fun vs next => ?_) (iff_of_false answer_rep_ne_failure answer_rep_ne_failure)
  rw [answer_rep_eq_success, answer_rep_eq_success, h]

theorem answer_chainLeft_congr {s s' : Parser ty (α → α → α)} (hp : answer defs ts p = answer defs ts q)
    (hs : answer defs ts s = answer defs ts s') : answer defs ts (chainLeft p s) = answer defs ts (chainLeft q s') := by
  funext pos
  refine Answer.eq_of_iff (fun v next => ?_) ?_
  · rw [answer_chainLeft_eq_success, answer_chainLeft_eq_success, hp, hs]
  · rw [answer_chainLeft_eq_failure, answer_chainLeft_eq_failure, hp]

/-- A parser with exclusive alternatives answers the same when it is reordered, and they are exclusive still. -/
theorem Reordered.answer_eq_and_exclusive (h : Reordered p q) (hx : Exclusive defs ts p) :
    answer defs ts q = answer defs ts p ∧ Exclusive defs ts q := by
  induction h with
  | @choice _ p q hperm =>
    obtain ⟨halt, hpair⟩ := (exclusive_iff p).mp hx
    refine ⟨funext fun pos => ?_, (exclusive_iff q).mpr ⟨fun a ha => halt a (hperm.mem_iff.mpr ha), fun pos => ?_⟩⟩
    · rw [answer_eq_first q, answer_eq_first p]
      exact (Answer.first_perm (hperm.map _) (hpair pos)).symm
    · exact (hpair pos).perm (hperm.map _) Answer.OneFails.symm
  | trans _ _ ih ih' =>
    obtain ⟨heq, hx'⟩ := ih hx
    obtain ⟨heq', hx''⟩ := ih' hx'
    exact ⟨heq'.trans heq, hx''⟩
  | seq _ _ ihp ihq =>
    obtain ⟨hp, hxp⟩ := ihp hx.1
    obtain ⟨hq, hxq⟩ := ihq hx.2
    exact ⟨funext fun pos => by rw [answer_seq, answer_seq, hp, hq], hxp, hxq⟩
  | alt _ _ ihp ihq =>
    obtain ⟨hp, hxp⟩ := ihp hx.1
    obtain ⟨hq, hxq⟩ := ihq hx.2.1
    refine ⟨funext fun pos => by rw [answer_alt, answer_alt, hp, hq], hxp, hxq, fun pos => ?_⟩
    rw [hp, hq]
    exact hx.2.2 pos
  | opt _ ih =>
    obtain ⟨hp, hxp⟩ := ih hx
    exact ⟨funext fun pos => by rw [answer_opt, answer_opt, hp], hxp⟩
  | rep _ ih =>
    obtain ⟨hp, hxp⟩ := ih hx
    exact ⟨answer_rep_congr hp, hxp⟩
  | map _ ih =>
    obtain ⟨hp, hxp⟩ := ih hx
    exact ⟨funext fun pos => by rw [answer_map, answer_map, hp], hxp⟩
  | filterMap _ ih =>
    obtain ⟨hp, hxp⟩ := ih hx
    exact ⟨funext fun pos => by rw [answer_filterMap, answer_filterMap, hp], hxp⟩
  | chainLeft _ _ ihp ihs =>
    obtain ⟨hp, hxp⟩ := ihp hx.1
    obtain ⟨hs, hxs⟩ := ihs hx.2
    exact ⟨answer_chainLeft_congr hp hs, hxp, hxs⟩
  | phrase _ ih =>
    obtain ⟨hp, hxp⟩ := ih hx
    exact ⟨funext fun pos => by rw [answer_phrase, answer_phrase, hp], hxp⟩

/-! ### The analysis of reordered parsers -/

theorem Reordered.nullable_iff (h : Reordered p q) : Nullable defs q ↔ Nullable defs p := by
  induction h with
  | @choice α p q hperm =>
    have halt (p q : Parser ty α) : Nullable defs (.alt p q) ↔ Nullable defs p ∨ Nullable defs q :=
      Parser.nullable_iff (.alt p q)
    rw [exists_alternatives_iff halt q, exists_alternatives_iff halt p]
    simp only [hperm.mem_iff]
  | trans _ _ ih ih' => exact ih'.trans ih
  | @seq _ _ p p' q q' _ _ ihp ihq =>
    exact (Parser.nullable_iff (.seq p' q')).trans ((and_congr ihp ihq).trans (Parser.nullable_iff (.seq p q)).symm)
  | @alt _ p p' q q' _ _ ihp ihq =>
    exact (Parser.nullable_iff (.alt p' q')).trans ((or_congr ihp ihq).trans (Parser.nullable_iff (.alt p q)).symm)
  | opt => exact iff_of_true .opt .opt
  | rep => exact iff_of_true .rep .rep
  | @map _ _ f p p' _ ih =>
    exact (Parser.nullable_iff (.map f p')).trans (ih.trans (Parser.nullable_iff (.map f p)).symm)
  | @filterMap _ _ f p p' _ ih =>
    exact (Parser.nullable_iff (.filterMap f p')).trans (ih.trans (Parser.nullable_iff (.filterMap f p)).symm)
  | @chainLeft _ p p' s s' _ _ ih _ =>
    exact (Parser.nullable_iff (.chainLeft p' s')).trans (ih.trans (Parser.nullable_iff (.chainLeft p s)).symm)
  | @phrase _ p p' _ ih =>
    exact (Parser.nullable_iff (.phrase p')).trans (ih.trans (Parser.nullable_iff (.phrase p)).symm)

theorem Reordered.callsFirst_iff {k : ν} (h : Reordered p q) : CallsFirst defs k q ↔ CallsFirst defs k p := by
  induction h with
  | @choice α p q hperm =>
    have halt (p q : Parser ty α) : CallsFirst defs k (.alt p q) ↔ CallsFirst defs k p ∨ CallsFirst defs k q := .rfl
    rw [exists_alternatives_iff halt q, exists_alternatives_iff halt p]
    simp only [hperm.mem_iff]
  | trans _ _ ih ih' => exact ih'.trans ih
  | seq hp _ ihp ihq | chainLeft hp _ ihp ihq => simp only [CallsFirst, hp.nullable_iff, ihp, ihq]
  | alt _ _ ihp ihq => simp only [CallsFirst, ihp, ihq]
  | opt _ ih | rep _ ih | map _ ih | filterMap _ ih | phrase _ ih => exact ih

theorem Reordered.loopsAdvance_iff (h : Reordered p q) : LoopsAdvance defs q ↔ LoopsAdvance defs p := by
  induction h with
  | @choice _ p q hperm =>
    rw [loopsAdvance_iff_alternatives q, loopsAdvance_iff_alternatives p]
    simp only [hperm.mem_iff]
  | trans _ _ ih ih' => exact ih'.trans ih
  | seq _ _ ihp ihq | alt _ _ ihp ihq => simp only [LoopsAdvance, ihp, ihq]
  | rep hp ih => simp only [LoopsAdvance, hp.nullable_iff, ih]
  | chainLeft hp hs ihp ihs => simp only [LoopsAdvance, hp.nullable_iff, hs.nullable_iff, ihp, ihs]
  | opt _ ih | map _ ih | filterMap _ ih | phrase _ ih => exact ih

/-! ### Families of reordered definitions -/

section

variable (hd : ∀ n, Reordered (defs n) (defs' n))

include hd

/-- What may take nothing in the new family may do so in the old one. -/
theorem Nullable.of_reordered (h : Nullable defs' p) : Nullable defs p := by
  induction h with
  | seq _ _ ihp ihq => exact .seq ihp ihq
  | left _ ih => exact .left ih
  | right _ ih => exact .right ih
  | opt => exact .opt
  | rep => exact .rep
  | map _ ih => exact .map ih
  | filterMap _ ih => exact .filterMap ih
  | chainLeft _ ih => exact .chainLeft ih
  | phrase _ ih => exact .phrase ih
  | call _ ih => exact .call ((hd _).nullable_iff.mp ih)

theorem CallsFirst.of_reordered {k : ν} (h : CallsFirst defs' k p) : CallsFirst defs k p := by
  induction p with
  | token | ofKind | fail => exact h
  | seq p q ihp ihq | chainLeft p q ihp ihq =>
    rcases h with h | ⟨hn, h⟩
    · exact Or.inl (ihp h)
    · exact Or.inr ⟨hn.of_reordered hd, ihq h⟩
  | alt p q ihp ihq => exact h.imp ihp ihq
  | opt p ih | rep p ih | map f p ih | filterMap f p ih | phrase p ih => exact ih h
  | call n => exact h

theorem LoopsAdvance.reordered (h : LoopsAdvance defs p) : LoopsAdvance defs' p := by
  induction p with
  | token | ofKind | fail | call => trivial
  | seq p q ihp ihq | alt p q ihp ihq => exact ⟨ihp h.1, ihq h.2⟩
  | opt p ih | map f p ih | filterMap f p ih | phrase p ih => exact ih h
  | rep p ih => exact ⟨fun hn => h.1 (hn.of_reordered hd), ih h.2⟩
  | chainLeft p s ihp ihs =>
    exact ⟨fun hn => h.1 ⟨hn.1.of_reordered hd, hn.2.of_reordered hd⟩, ihp h.2.1, ihs h.2.2⟩

end

/-- Where the calls of a run give what the family answers, the run gives what the family answers. -/
theorem runWith_upto_answer_of_called {called : (n : ν) → Nat → Answer (ty n)}
    (hc : ∀ n pos, (called n pos).Upto (answer defs ts (call n) pos)) (fuel : Nat) (p : Parser ty α) (pos : Nat) :
    (p.runWith ts called fuel pos).Upto (answer defs ts p pos) := by
  induction p generalizing pos with
  | token text kind =>
    rw [answer_token]
    exact .refl _
  | ofKind kind =>
    rw [answer_ofKind]
    exact .refl _
  | fail =>
    rw [answer_fail]
    exact .refl _
  | seq p r ihp ihr =>
    rw [answer_seq]
    exact (ihp pos).bind fun _ mid => (ihr mid).map _
  | alt p r ihp ihr =>
    rw [answer_alt]
    exact (ihp pos).orElse (ihr pos)
  | opt p ih =>
    rw [answer_opt]
    exact (ih pos).optional pos
  | rep p ih =>
    cases h : (rep p).runWith ts called fuel pos with
    | unfinished => exact .unfinished _
    | failure => exact absurd h repeatRun_ne_failure
    | success vs stop => exact Or.inr (answer_rep_eq_success.mpr (.of_repeatRun ih h)).symm
  | map f p ih =>
    rw [answer_map]
    exact (ih pos).map f
  | filterMap f p ih =>
    rw [answer_filterMap]
    exact (ih pos).filterMap f
  | chainLeft p s ihp ihs =>
    cases h : (chainLeft p s).runWith ts called fuel pos with
    | unfinished => exact .unfinished _
    | failure =>
      rcases Answer.bind_eq_failure.mp h with hp | ⟨left, mid, -, hrest⟩
      · exact Or.inr (answer_chainLeft_eq_failure.mpr ((ihp pos).of_finished hp nofun)).symm
      · exact absurd hrest chainRun_ne_failure
    | success v stop =>
      obtain ⟨left, mid, hp, hrest⟩ := Answer.bind_eq_success.mp h
      exact Or.inr (answer_chainLeft_eq_success.mpr
        ⟨left, mid, (ihp pos).of_finished hp nofun, .of_chainRun ihp ihs hrest⟩).symm
  | phrase p ih =>
    rw [answer_phrase]
    exact (ih pos).endingAt _
  | call n => exact hc n pos

/-- Where other definitions answer the same in a family, runs that call these instead give what the family answers. -/
theorem run_upto_answer_of_family (hd : ∀ n, answer defs ts (defs' n) = answer defs ts (defs n)) (fuel : Nat)
    (p : Parser ty α) (pos : Nat) : (p.run defs' ts fuel pos).Upto (answer defs ts p pos) := by
  refine runWith_upto_answer_of_called (fun n pos => ?_) fuel p pos
  induction fuel generalizing n pos with
  | zero => exact .unfinished _
  | succ fuel ih =>
    rw [answer_call, ← hd n]
    exact runWith_upto_answer_of_called ih fuel (defs' n) pos

/-- In a family whose definitions take a token before they call anything, whose loops advance and whose alternatives
    exclude one another, runs with enough fuel do not change when the definitions and the parser are reordered. -/
theorem run_reordered (hd : ∀ n, Reordered (defs n) (defs' n)) (hcalls : ∀ n k, ¬ CallsFirst defs k (defs n))
    (hloops : ∀ n, LoopsAdvance defs (defs n)) (hx : ∀ n, Exclusive defs ts (defs n)) (h : Reordered p q)
    (hl : LoopsAdvance defs p) (hp : Exclusive defs ts p) {fuel : Nat} (hf : ts.size - pos + 1 < fuel) :
    q.run defs' ts fuel pos = p.run defs ts fuel pos := by
  have hcalls' (n k : ν) (hk : CallsFirst defs' k (defs' n)) : False :=
    hcalls n k ((hd n).callsFirst_iff.mp (hk.of_reordered hd))
  have hloops' (n : ν) : LoopsAdvance defs' (defs' n) := ((hd n).loopsAdvance_iff.mpr (hloops n)).reordered hd
  have hfinished : q.run defs' ts fuel pos ≠ .unfinished :=
    run_finished hcalls' hloops' ((h.loopsAdvance_iff.mpr hl).reordered hd) hf
  have hanswers (n : ν) : answer defs ts (defs' n) = answer defs ts (defs n) := ((hd n).answer_eq_and_exclusive (hx n)).1
  calc q.run defs' ts fuel pos
    _ = answer defs ts q pos := (run_upto_answer_of_family hanswers fuel q pos).eq hfinished
    _ = answer defs ts p pos := by rw [(h.answer_eq_and_exclusive hp).1]
    _ = p.run defs ts fuel pos := answer_eq_run (run_finished hcalls hloops hl hf)

/-! ### Parts -/

variable {γ : Type} {r : Parser ty γ}

theorem PartOf.loopsAdvance (h : PartOf r p) (hp : LoopsAdvance defs p) : LoopsAdvance defs r := by
  induction h with
  | whole => exact hp
  | first _ ih | left _ ih => exact ih hp.1
  | second _ ih | right _ ih | rep _ ih => exact ih hp.2
  | opt _ ih | map _ ih | filterMap _ ih | phrase _ ih => exact ih hp
  | operand _ ih => exact ih hp.2.1
  | separator _ ih => exact ih hp.2.2

theorem PartOf.exclusive (h : PartOf r p) (hp : Exclusive defs ts p) : Exclusive defs ts r := by
  induction h with
  | whole => exact hp
  | first _ ih | left _ ih | operand _ ih => exact ih hp.1
  | second _ ih | separator _ ih => exact ih hp.2
  | right _ ih => exact ih hp.2.1
  | opt _ ih | rep _ ih | map _ ih | filterMap _ ih | phrase _ ih => exact ih hp

end Parser

end Imp
