import Imp.Parser.OperatorTree
import Imp.Proofs.Parser.Answers
import Imp.Proofs.Parser.Reading

/-! # Chains of operands

A chain goes round with a state: the value joined so far and the position behind it. Where every
operand is taken as it stands, the run of a chain comes through the state behind each piece that the
chain derives, provided that the token behind the piece does not go on with its last operand. From
that state on it is again a run of the chain, and what it adds only makes the piece longer. -/

namespace Imp

variable {α : Type}

/-! ### One round -/

namespace Parser

variable {operand : Nat → Answer α} {separator : Nat → Answer (α → α → α)} {n pos mid next : Nat} {left right : α}
  {join : α → α → α}

theorem chainRun_of_absent (hs : separator pos = .failure) :
    chainRun operand separator (n + 1) left pos = .success left pos := by
  simp only [chainRun, hs]

theorem chainRun_of_dangling (hs : separator pos = .success join mid) (ho : operand mid = .failure) :
    chainRun operand separator (n + 1) left pos = .success left pos := by
  simp only [chainRun, hs, ho]

theorem chainRun_of_round (hs : separator pos = .success join mid) (ho : operand mid = .success right next) :
    chainRun operand separator (n + 1) left pos = chainRun operand separator n (join left right) next := by
  simp only [chainRun, hs, ho]

/-- A chain stops where no separator stands or no operand behind it, and else goes on behind the operand. -/
theorem chainRun_succ_cases {v : α} {q : Nat} (h : chainRun operand separator (n + 1) left pos = .success v q) :
    ((separator pos = .failure ∨ ∃ join mid, separator pos = .success join mid ∧ operand mid = .failure) ∧
      v = left ∧ q = pos) ∨
    ∃ join mid right next, separator pos = .success join mid ∧ operand mid = .success right next ∧
      chainRun operand separator n (join left right) next = .success v q := by
  cases hs : separator pos with
  | unfinished => simp [chainRun, hs] at h
  | failure =>
    cases (chainRun_of_absent hs).symm.trans h
    exact Or.inl ⟨Or.inl rfl, rfl, rfl⟩
  | success join mid =>
    cases ho : operand mid with
    | unfinished => simp [chainRun, hs, ho] at h
    | failure =>
      cases (chainRun_of_dangling hs ho).symm.trans h
      exact Or.inl ⟨Or.inr ⟨join, mid, rfl, ho⟩, rfl, rfl⟩
    | success right next => exact Or.inr ⟨join, mid, right, next, rfl, ho, (chainRun_of_round hs ho).symm.trans h⟩

theorem chainRun_ne_failure : chainRun operand separator n left pos ≠ .failure := by
  induction n generalizing left pos with
  | zero => exact nofun
  | succ n ih =>
    cases hs : separator pos with
    | unfinished => simp [chainRun, hs]
    | failure => simp [chainRun_of_absent hs]
    | success join mid =>
      cases ho : operand mid with
      | unfinished => simp [chainRun, hs, ho]
      | failure => simp [chainRun_of_dangling hs ho]
      | success right next =>
        rw [chainRun_of_round hs ho]
        exact ih

end Parser

/-! ### Chains as pieces of text -/

/-- Operands that `D` derives with separators between them, joined from the left. `S` gives the
    function that a separator joins with. -/
inductive Chained (D : List Token → α → Prop) (S : Token → (α → α → α) → Prop) : List Token → α → Prop where
  | single {seg : List Token} {v : α} : D seg v → Chained D S seg v
  | more {seg us : List Token} {t : Token} {v w : α} {join : α → α → α} : Chained D S seg v → S t join → D us w →
      Chained D S (seg ++ t :: us) (join v w)

/-- The run takes one token that `S` accepts, and fails where none stands. -/
structure Separates (ts : Array Token) (S : Token → (α → α → α) → Prop) (s : Nat → Answer (α → α → α)) : Prop where
  sound : ∀ {pos next : Nat} {join : α → α → α}, s pos = .success join next →
    ∃ t, ts[pos]? = some t ∧ S t join ∧ next = pos + 1
  taken : ∀ {pos : Nat} {t : Token} {join : α → α → α}, ts[pos]? = some t → S t join → s pos = .success join (pos + 1)
  finished : ∀ pos, s pos ≠ .unfinished

namespace Separates

variable {ts : Array Token} {S : Token → (α → α → α) → Prop} {s : Nat → Answer (α → α → α)}

theorem absent (h : Separates ts S s) {pos : Nat} (hn : ∀ t, ts[pos]? = some t → ∀ join, ¬ S t join) :
    s pos = .failure := by
  cases hs : s pos with
  | unfinished => exact absurd hs (h.finished pos)
  | failure => rfl
  | success join next =>
    obtain ⟨t, ht, hS, -⟩ := h.sound hs
    exact absurd hS (hn t ht join)

end Separates

theorem Chained.ne_nil {D : List Token → α → Prop} {S : Token → (α → α → α) → Prop}
    (hD : ∀ {seg v}, D seg v → seg ≠ []) {seg : List Token} {v : α} (h : Chained D S seg v) : seg ≠ [] := by
  cases h with
  | single h => exact hD h
  | more => simp

/-! ### Runs of chains -/

section

variable {ts : Array Token} {D : List Token → α → Prop} {E : Token → Prop} {S : Token → (α → α → α) → Prop}
  {operand : Nat → Answer α} {separator : Nat → Answer (α → α → α)} {pos : Nat}
  (ho : ∀ p, pos ≤ p → Reads ts D E operand p) (hs : Separates ts S separator)
  (hD : ∀ {seg v}, D seg v → seg ≠ [])

include ho hs hD

theorem chainRun_finishes (n : Nat) (left : α) {p : Nat} (hp : pos ≤ p) (hle : p ≤ ts.size) (hn : ts.size < p + n) :
    ∃ v q, Parser.chainRun operand separator n left p = .success v q ∧ p ≤ q ∧ (q = p → v = left) := by
  induction n generalizing left p with
  | zero => omega
  | succ n ih =>
    cases hsep : separator p with
    | unfinished => exact absurd hsep (hs.finished p)
    | failure => exact ⟨left, p, Parser.chainRun_of_absent hsep, Nat.le_refl _, fun _ => rfl⟩
    | success join mid =>
      obtain ⟨t, -, -, rfl⟩ := hs.sound hsep
      rcases (ho (p + 1) (by omega)).failure_or_success with hop | ⟨w, next, hop⟩
      · exact ⟨left, p, Parser.chainRun_of_dangling hsep hop, Nat.le_refl _, fun _ => rfl⟩
      · obtain ⟨seg, hst, rfl, hd⟩ := (ho (p + 1) (by omega)).sound hop
        have hsize := hst.le_size (hD hd)
        obtain ⟨v, q, hrun, hq, -⟩ := ih (join left w) (by omega) hsize (by omega)
        exact ⟨v, q, (Parser.chainRun_of_round hsep hop).trans hrun, by omega, by omega⟩

omit hD in
theorem chainRun_sound {n : Nat} {left v : α} {seg : List Token} {q : Nat} (hst : Stands ts pos seg)
    (hc : Chained D S seg left) (hrun : Parser.chainRun operand separator n left (pos + seg.length) = .success v q) :
    ∃ seg', Stands ts pos seg' ∧ q = pos + seg'.length ∧ Chained D S seg' v := by
  induction n generalizing left seg with
  | zero => cases hrun
  | succ n ih =>
    rcases Parser.chainRun_succ_cases hrun with ⟨-, rfl, rfl⟩ | ⟨join, mid, w, next, hsep, hop, hrun⟩
    · exact ⟨seg, hst, rfl, hc⟩
    · obtain ⟨t, ht, hS, rfl⟩ := hs.sound hsep
      obtain ⟨us, hus, rfl, hd⟩ := (ho _ (by omega)).sound hop
      refine ih (Stands.append_cons_iff.mpr ⟨hst, ht, hus⟩) (hc.more hS hd) ?_
      rw [length_append_cons]
      exact hrun

/-- The run of a chain comes through the state behind a piece that the chain derives. -/
theorem chainRun_through (hSE : ∀ {t join}, S t join → ¬ E t) {fuel : Nat} (hf : ts.size < pos + fuel)
    {seg : List Token} {v : α} (hc : Chained D S seg v) (hst : Stands ts pos seg)
    (hn : ∀ t, ts[pos + seg.length]? = some t → ¬ E t) :
    ∃ n, ts.size < pos + seg.length + n ∧
      (operand pos).bind (Parser.chainRun operand separator fuel) =
        Parser.chainRun operand separator n v (pos + seg.length) := by
  induction hc with
  | @single seg v hd =>
    refine ⟨fuel, by omega, ?_⟩
    rw [(ho pos (Nat.le_refl _)).exact hd hst hn]
    rfl
  | @more seg us t v w join hc hS hd ih =>
    obtain ⟨hseg, ht, hus⟩ := Stands.append_cons_iff.mp hst
    rw [length_append_cons] at hn ⊢
    obtain ⟨n, hsize, hrun⟩ := ih hseg fun t' ht' => by
      rw [ht] at ht'
      cases ht'
      exact hSE hS
    have hle := hus.le_size (hD hd)
    obtain ⟨n, rfl⟩ : ∃ m, n = m + 1 := ⟨n - 1, by omega⟩
    have hop := (ho _ (by omega)).exact hd hus hn
    exact ⟨n, by omega, hrun.trans (Parser.chainRun_of_round (hs.taken ht hS) hop)⟩

/-- A chain of operands that are read is read. -/
theorem Reads.chain (hSE : ∀ {t join}, S t join → ¬ E t) {fuel : Nat} (hf : ts.size < pos + fuel) :
    Reads ts (Chained D S) (fun t => E t ∨ ∃ join, S t join)
      (fun p => (operand p).bind (Parser.chainRun operand separator fuel)) pos where
  finished := by
    rcases (ho pos (Nat.le_refl _)).failure_or_success with hop | ⟨v, q, hop⟩
    · simp [hop, Answer.bind]
    · obtain ⟨seg, hst, rfl, hd⟩ := (ho pos (Nat.le_refl _)).sound hop
      obtain ⟨v', q', hrun, -⟩ := chainRun_finishes ho hs hD fuel v (Nat.le_add_right pos seg.length)
        (hst.le_size (hD hd)) (by omega)
      simp [hop, Answer.bind, hrun]
  sound := by
    intro v q h
    rcases (ho pos (Nat.le_refl _)).failure_or_success with hop | ⟨w, mid, hop⟩
    · simp [hop, Answer.bind] at h
    · obtain ⟨seg, hst, rfl, hd⟩ := (ho pos (Nat.le_refl _)).sound hop
      simp only [hop, Answer.bind] at h
      exact chainRun_sound ho hs hst (.single hd) h
  exact := by
    intro seg v hc hst hn
    obtain ⟨n, hsize, hrun⟩ := chainRun_through ho hs hD hSE hf hc hst fun t ht he => hn t ht (Or.inl he)
    have hle := hst.le_size (hc.ne_nil hD)
    obtain ⟨n, rfl⟩ : ∃ m, n = m + 1 := ⟨n - 1, by omega⟩
    have hsep := hs.absent fun t ht join hS => hn t ht (Or.inr ⟨join, hS⟩)
    exact hrun.trans (Parser.chainRun_of_absent hsep)
  longest := by
    intro seg v hc hst
    cases hc with
    | single hd =>
      obtain ⟨v', q, hop, hle, hv⟩ := (ho pos (Nat.le_refl _)).longest hd hst
      obtain ⟨seg', hst', rfl, hd'⟩ := (ho pos (Nat.le_refl _)).sound hop
      obtain ⟨v'', q', hrun, hle', hv'⟩ := chainRun_finishes ho hs hD fuel v' (Nat.le_add_right pos seg'.length)
        (hst'.le_size (hD hd')) (by omega)
      refine ⟨v'', q', by simp only [hop, Answer.bind, hrun], by omega, fun hq => ?_⟩
      rw [hv' (by omega), hv (by omega)]
    | @more seg us t v w join hc hS hd =>
      obtain ⟨hseg, ht, hus⟩ := Stands.append_cons_iff.mp hst
      rw [length_append_cons]
      obtain ⟨n, hsize, hthrough⟩ := chainRun_through ho hs hD hSE hf hc hseg fun t' ht' => by
        rw [ht] at ht'
        cases ht'
        exact hSE hS
      obtain ⟨w', q, hop, hle, hw⟩ := (ho (pos + seg.length + 1) (by omega)).longest hd hus
      obtain ⟨us', hus', rfl, hd'⟩ := (ho (pos + seg.length + 1) (by omega)).sound hop
      have hsize' := hus'.le_size (hD hd')
      obtain ⟨n, rfl⟩ : ∃ m, n = m + 1 := ⟨n - 1, by omega⟩
      -- The last operand may go on; the chain goes on behind it.
      obtain ⟨v', q', hrun, hle', hv'⟩ := chainRun_finishes ho hs hD n (join v w') (by omega) hsize' (by omega)
      have hround := (Parser.chainRun_of_round (hs.taken ht hS) hop).trans hrun
      refine ⟨v', q', hthrough.trans hround, by omega, fun hq => ?_⟩
      rw [hv' (by omega), hw (by omega)]

end

/-! ### Operators as separators -/

section

variable {ω ν : Type} {ty : ν → Type} {ts : Array Token} {called : (n : ν) → Nat → Answer (ty n)} {fuel : Nat}
  {symbol : ω → String} {ops : List ω}

theorem DistinctSymbols.of_injective (h : Function.Injective symbol) : DistinctSymbols symbol ops :=
  fun _ _ _ _ he => h he

theorem DistinctSymbols.mono {ops' : List ω} (h : DistinctSymbols symbol ops') (hsub : ∀ op ∈ ops, op ∈ ops') :
    DistinctSymbols symbol ops :=
  fun a ha b hb => h a (hsub a ha) b (hsub b hb)

/-- The token is one of the operators, and the function joins with it. -/
def JoinsWith (symbol : ω → String) (join : ω → α → α → α) (ops : List ω) (t : Token) (f : α → α → α) : Prop :=
  ∃ op ∈ ops, t.Is (symbol op) ∧ f = join op

theorem anyOperator_finished (pos : Nat) :
    (Parser.anyOperator symbol ops : Parser ty ω).runWith ts called fuel pos ≠ .unfinished := by
  induction ops with
  | nil => exact nofun
  | cons op ops ih => exact Answer.orElse_finished (Answer.map_finished Parser.token_finished) ih

theorem anyOperator_eq_success (hd : DistinctSymbols symbol ops) {pos q : Nat} {op : ω} :
    (Parser.anyOperator symbol ops : Parser ty ω).runWith ts called fuel pos = .success op q ↔
      op ∈ ops ∧ ∃ t, ts[pos]? = some t ∧ t.Is (symbol op) ∧ q = pos + 1 := by
  induction ops with
  | nil => simp [Parser.anyOperator, Parser.runWith]
  | cons o ops ih =>
    show ((Parser.runWith ts called fuel (.token (symbol o) .reserved) pos).map fun _ => o).orElse
      (fun _ => (Parser.anyOperator symbol ops : Parser ty ω).runWith ts called fuel pos) = _ ↔ _
    rw [Answer.orElse_eq_success, Answer.map_eq_success, Answer.map_eq_failure,
      ih (hd.mono fun _ => List.mem_cons_of_mem o)]
    constructor
    · rintro (⟨x, hx, rfl⟩ | ⟨-, hop, ht⟩)
      · obtain ⟨t, ht, hi, -, hq⟩ := Parser.token_eq_success.mp hx
        exact ⟨List.mem_cons_self, t, ht, hi, hq⟩
      · exact ⟨List.mem_cons_of_mem _ hop, ht⟩
    · rintro ⟨hop, t, ht, hi, hq⟩
      by_cases ho : t.Is (symbol o)
      · have : op = o := hd op hop o List.mem_cons_self (hi.1.symm.trans ho.1)
        subst this
        exact Or.inl ⟨t.text, Parser.token_eq_success.mpr ⟨t, ht, ho, rfl, hq⟩, rfl⟩
      · refine Or.inr ⟨Parser.token_eq_failure fun t' ht' => ?_, ?_, t, ht, hi, hq⟩
        · rw [ht] at ht'
          cases ht'
          exact ho
        · rcases List.mem_cons.mp hop with rfl | hop
          · exact absurd hi ho
          · exact hop

theorem separates_operators (hd : DistinctSymbols symbol ops) (join : ω → α → α → α) :
    Separates ts (JoinsWith symbol join ops)
      ((Parser.map join (Parser.anyOperator symbol ops) : Parser ty _).runWith ts called fuel) where
  sound := by
    intro pos next f h
    obtain ⟨op, hop, rfl⟩ := Answer.map_eq_success.mp h
    obtain ⟨hmem, t, ht, hi, hq⟩ := (anyOperator_eq_success hd).mp hop
    exact ⟨t, ht, ⟨op, hmem, hi, rfl⟩, hq⟩
  taken := by
    rintro pos t _ ht ⟨op, hmem, hi, rfl⟩
    exact Answer.map_eq_success.mpr ⟨op, (anyOperator_eq_success hd).mpr ⟨hmem, t, ht, hi, rfl⟩, rfl⟩
  finished := fun pos => Answer.map_finished (anyOperator_finished pos)

end

end Imp
