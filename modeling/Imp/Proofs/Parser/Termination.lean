import Imp.Proofs.Parser.Positions
import Mathlib.Data.Fintype.Card

/-! # Parsers that come to an end

Whether a parser is finished at a position hangs on what it may call there before it has taken a token, and
on what may be called further on. A loop that takes a token in each round is finished if its parts are. In a
well-formed family no definition comes back to itself at the same position, so with finitely many definitions
all calls at a position are finished if those further on are; and positions end where the tokens do. -/

namespace Imp.Parser

variable {ν : Type} {ty : ν → Type} {α β : Type} {defs : Family ty} {ts : Array Token}

/-! ### Loops -/

theorem RepeatAt.exists_of_finished {step : Nat → Answer α} {pos : Nat} (hf : Forward ts step)
    (hend : ∀ q, Reaches ts pos q → step q ≠ .unfinished) (hadv : ∀ {q v next}, step q = .success v next → q < next) :
    ∃ vs stop, RepeatAt step pos vs stop := by
  match hs : step pos with
  | .unfinished => exact absurd hs (hend pos (.refl pos))
  | .failure => exact ⟨[], pos, .done hs⟩
  | .success v next =>
    have hlt := hadv hs
    have hreach := hf hs
    have hle : next ≤ ts.size := hreach.le_size hlt
    obtain ⟨vs, stop, hrest⟩ : ∃ vs stop, RepeatAt step next vs stop :=
      RepeatAt.exists_of_finished hf (fun q hq => hend q (hreach.trans hq)) hadv
    exact ⟨v :: vs, stop, .more hs hrest⟩
termination_by ts.size - pos

theorem ChainAt.exists_of_finished {operand : Nat → Answer α} {separator : Nat → Answer (α → α → α)}
    {pos : Nat} (ho : Forward ts operand) (hs : Forward ts separator) (hoend : ∀ q, Reaches ts pos q → operand q ≠ .unfinished)
    (hsend : ∀ q, Reaches ts pos q → separator q ≠ .unfinished)
    (hadv : ∀ {q join mid right next}, separator q = .success join mid → operand mid = .success right next → q < next)
    (left : α) : ∃ v stop, ChainAt operand separator left pos v stop := by
  match hsep : separator pos with
  | .unfinished => exact absurd hsep (hsend pos (.refl pos))
  | .failure => exact ⟨left, pos, .absent hsep⟩
  | .success join mid =>
    match hop : operand mid with
    | .unfinished => exact absurd hop (hoend mid (hs hsep))
    | .failure => exact ⟨left, pos, .dangling hsep hop⟩
    | .success right next =>
      have hlt := hadv hsep hop
      have hreach := (hs hsep).trans (ho hop)
      have hle : next ≤ ts.size := hreach.le_size hlt
      obtain ⟨v, stop, hrest⟩ : ∃ v stop, ChainAt operand separator (join left right) next v stop :=
        ChainAt.exists_of_finished ho hs (fun q hq => hoend q (hreach.trans hq))
          (fun q hq => hsend q (hreach.trans hq)) hadv (join left right)
      exact ⟨v, stop, .round hsep hop hrest⟩
termination_by ts.size - pos

/-! ### What a parser calls -/

variable {pos mid : Nat}

/-- All calls that the run of a parser at a position may make are finished: there those that come before a
    token is taken, and further on any. -/
structure CallsFinish (defs : Family ty) (ts : Array Token) (pos : Nat) (p : Parser ty α) : Prop where
  first : ∀ n, CallsFirst defs n p → answer defs ts (call n) pos ≠ .unfinished
  later : ∀ n q, pos < q → q ≤ ts.size → answer defs ts (call n) q ≠ .unfinished

/-- Another parser that goes on further on, or at the same position with no other calls. -/
theorem CallsFinish.next {p : Parser ty α} {r : Parser ty β} (h : CallsFinish defs ts pos p) (hr : Reaches ts pos mid)
    (hfirst : mid = pos → ∀ n, CallsFirst defs n r → CallsFirst defs n p) : CallsFinish defs ts mid r where
  first n hn := by
    by_cases hmid : mid = pos
    · rw [hmid]
      exact h.first n (hfirst hmid n hn)
    · exact h.later n mid (Nat.lt_of_le_of_ne hr.1 (Ne.symm hmid)) (hr.2.resolve_left hmid)
  later n q hq hle := h.later n q (Nat.lt_of_le_of_lt hr.1 hq) hle

theorem CallsFinish.part {p : Parser ty α} {r : Parser ty β} (h : CallsFinish defs ts pos p)
    (hfirst : ∀ n, CallsFirst defs n r → CallsFirst defs n p) : CallsFinish defs ts pos r :=
  h.next (.refl pos) fun _ => hfirst

/-- A round of a chain takes a token, if an operand or a separator does. -/
theorem round_advances {p : Parser ty α} {s : Parser ty (α → α → α)} (h : ¬ (Nullable defs p ∧ Nullable defs s))
    {join : α → α → α} {right : α} {next : Nat} (hs : answer defs ts s pos = .success join mid)
    (hp : answer defs ts p mid = .success right next) : pos < next := by
  have hle := (answer_forward defs s hs).1
  have hle' := (answer_forward defs p hp).1
  refine Nat.lt_of_le_of_ne (Nat.le_trans hle hle') fun he => h ?_
  obtain rfl : mid = pos := by omega
  obtain rfl : next = mid := he.symm
  exact ⟨answer_nullable hp, answer_nullable hs⟩

/-- A parser whose loops take tokens is finished if all its calls are. -/
theorem answer_finished {p : Parser ty α} (hp : LoopsAdvance defs p) (h : CallsFinish defs ts pos p) :
    answer defs ts p pos ≠ .unfinished := by
  induction p generalizing pos with
  | token text kind =>
    rw [answer_token]
    exact take_finished ts _ pos
  | ofKind kind =>
    rw [answer_ofKind]
    exact take_finished ts _ pos
  | fail =>
    rw [answer_fail]
    exact nofun
  | seq p r ihp ihr =>
    rw [answer_seq]
    refine Answer.bind_finished (ihp hp.1 (h.part fun _ => Or.inl)) fun v mid hv => Answer.map_finished (ihr hp.2 ?_)
    refine h.next (answer_forward defs p hv) fun hmid n hn => Or.inr ⟨?_, hn⟩
    rw [hmid] at hv
    exact answer_nullable hv
  | alt p r ihp ihr =>
    rw [answer_alt]
    exact Answer.orElse_finished (ihp hp.1 (h.part fun _ => Or.inl)) (ihr hp.2 (h.part fun _ => Or.inr))
  | opt p ih =>
    rw [answer_opt]
    exact Answer.optional_finished (ih hp (h.part fun _ => id))
  | rep p ih =>
    have hend : ∀ q, Reaches ts pos q → answer defs ts p q ≠ .unfinished := fun q hq =>
      ih hp.2 (h.next hq fun _ _ => id)
    obtain ⟨vs, stop, hrep⟩ := RepeatAt.exists_of_finished (answer_forward defs p) hend (answer_advances hp.1)
    rw [answer_rep_eq_success.mpr hrep]
    exact nofun
  | map f p ih =>
    rw [answer_map]
    exact Answer.map_finished (ih hp (h.part fun _ => id))
  | filterMap f p ih =>
    rw [answer_filterMap]
    exact Answer.filterMap_finished (ih hp (h.part fun _ => id))
  | chainLeft p s ihp ihs =>
    match hop : answer defs ts p pos with
    | .unfinished => exact absurd hop (ihp hp.2.1 (h.part fun _ => Or.inl))
    | .failure =>
      rw [answer_chainLeft_eq_failure.mpr hop]
      exact nofun
    | .success left mid =>
      have hmid := answer_forward defs p hop
      have hoend : ∀ q, Reaches ts mid q → answer defs ts p q ≠ .unfinished := fun q hq =>
        ihp hp.2.1 (h.next (hmid.trans hq) fun _ _ => Or.inl)
      -- A separator stands at the first position only if the operand before it has taken nothing.
      have hsend : ∀ q, Reaches ts mid q → answer defs ts s q ≠ .unfinished := fun q hq =>
        ihs hp.2.2 <| h.next (hmid.trans hq) fun hqpos n hn => by
          obtain rfl : mid = pos := Nat.le_antisymm (hqpos ▸ hq.1) hmid.1
          exact Or.inr ⟨answer_nullable hop, hn⟩
      obtain ⟨v, stop, hc⟩ := ChainAt.exists_of_finished (answer_forward defs p) (answer_forward defs s) hoend hsend
        (round_advances hp.1) left
      rw [answer_chainLeft_eq_success.mpr ⟨left, mid, hop, hc⟩]
      exact nofun
  | phrase p ih =>
    rw [answer_phrase]
    exact Answer.endingAt_finished (ih hp (h.part fun _ => id))
  | call n => exact h.first n rfl

/-! ### Well-formed families -/

/-- No definition comes back to itself, so from one to the next that it calls first the way ends. -/
theorem WellFormed.wellFounded [Finite ν] (h : WellFormed defs) : WellFounded fun k n => CallsFirst defs k (defs n) := by
  have htrans : WellFounded (Relation.TransGen fun k n => CallsFirst defs k (defs n)) := by
    have : IsTrans ν (Relation.TransGen fun k n => CallsFirst defs k (defs n)) := ⟨fun _ _ _ => Relation.TransGen.trans⟩
    have : Std.Irrefl (Relation.TransGen fun k n => CallsFirst defs k (defs n)) :=
      ⟨fun n hn => h.calls n (Relation.transGen_swap.mp hn)⟩
    exact Finite.wellFounded_of_trans_of_irrefl _
  exact Subrelation.wf (fun hk => Relation.TransGen.single hk) htrans

theorem WellFormed.call_finished [Finite ν] (h : WellFormed defs) (n : ν) (pos : Nat) :
    answer defs ts (call n) pos ≠ .unfinished := by
  -- First the tokens that are left, and then the definitions that are called before one of them is taken.
  induction hm : ts.size - pos using Nat.strong_induction_on generalizing n pos with
  | _ m later =>
    induction n using h.wellFounded.induction with
    | _ n first =>
      rw [answer_call]
      exact answer_finished (h.loops n) ⟨first, fun k q hlt hle => later (ts.size - q) (by omega) k q rfl⟩

/-- All calls are finished, so a parser is if its loops take tokens. -/
theorem WellFormed.halts_of_loopsAdvance [Finite ν] (h : WellFormed defs) {p : Parser ty α} (hp : LoopsAdvance defs p) :
    Halts defs ts p pos :=
  halts_iff_answer.mpr (answer_finished hp ⟨fun n _ => h.call_finished n pos, fun n q _ _ => h.call_finished n q⟩)

/-- In a well-formed family every definition comes to an end at every position of every tokens, and so does every
    other parser that calls them and whose loops take tokens. -/
theorem WellFormed.halts [Finite ν] (h : WellFormed defs) (ts : Array Token) (pos : Nat) :
    (∀ n, Halts defs ts (defs n) pos) ∧ ∀ {α : Type} (p : Parser ty α), LoopsAdvance defs p → Halts defs ts p pos :=
  ⟨fun n => h.halts_of_loopsAdvance (h.loops n), fun _ hp => h.halts_of_loopsAdvance hp⟩

/-- Lists and items that stand in one another. In a list each item ends with a semicolon. An item is a list in
    parentheses, or names with commas between them, any of which may be left out. -/
def nestedLists : Family (fun _ : Bool => List String)
  | false => map List.flatten (rep (map Prod.fst (seq (call true) (token ";" .reserved))))
  | true => alt (map (fun r => r.1.2) (seq (seq (token "(" .reserved) (call false)) (token ")" .reserved)))
      (chainLeft (map Option.toList (opt (ofKind .name))) (map (fun _ => List.append) (token "," .reserved)))

theorem callsFirst_nestedLists {k n : Bool} (h : CallsFirst nestedLists k (nestedLists n)) : n = false ∧ k = true := by
  cases n with
  | false => simpa [nestedLists, CallsFirst, nullable_iff, eq_comm] using h
  | true => simp [nestedLists, CallsFirst, nullable_iff] at h

theorem wellFormed_nestedLists : WellFormed nestedLists where
  loops n := by
    cases n with
    | false => simp [nestedLists, LoopsAdvance, nullable_iff]
    | true => simp [nestedLists, LoopsAdvance, nullable_iff]
  calls n h := by
    obtain ⟨k, hfirst, -⟩ := Relation.TransGen.head'_iff.mp h
    obtain ⟨m, -, hlast⟩ := Relation.TransGen.tail'_iff.mp h
    exact absurd ((callsFirst_nestedLists hfirst).1.symm.trans (callsFirst_nestedLists hlast).2) nofun

theorem halts_nestedLists :
    let ts : Array Token := #[⟨"(", .reserved, ⟨1, 1⟩⟩, ⟨"x", .name, ⟨1, 2⟩⟩, ⟨",", .reserved, ⟨1, 3⟩⟩, ⟨";", .reserved, ⟨1, 4⟩⟩]
    WellFormed nestedLists ∧ Halts nestedLists ts (nestedLists false) 0 :=
  ⟨wellFormed_nestedLists, (wellFormed_nestedLists.halts _ 0).1 false⟩

end Imp.Parser
