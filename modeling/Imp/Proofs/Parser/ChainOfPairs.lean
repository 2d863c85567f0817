import Imp.Parser.ChainOfPairs
import Imp.Proofs.Parser.Rules
import Imp.Syntax.Grammar

/-! # Chains are repetitions of pairs

A chain joins each operand as soon as it has been taken, and looks for the separator and the operand in two steps,
either of which may end it. A repetition of pairs looks for both in one step, and its values are joined when it has
ended. The two go round in step: they are at the same position in each round, and what the chain has joined so far
is what the pairs taken so far join to. So they end alike, and in front of a separator without an operand. -/

namespace Imp

theorem Answer.map_map {α β γ : Type} (g : β → γ) (f : α → β) (a : Answer α) : (a.map f).map g = a.map (g ∘ f) := by
  cases a <;> rfl

namespace Parser

variable {ν : Type} {ty : ν → Type} {α : Type}

/-! ### Round by round -/

section

variable {operand : Nat → Answer α} {separator : Nat → Answer (α → α → α)}

/-- A separator and the operand behind it, as one step. -/
def pairRun (operand : Nat → Answer α) (separator : Nat → Answer (α → α → α)) (pos : Nat) : Answer ((α → α → α) × α) :=
  (separator pos).bind fun join mid => (operand mid).map (join, ·)

/-- The rounds of a chain are those of a repetition of pairs, with what was joined before them in front. -/
theorem chainRun_eq_map (fuel : Nat) (left : α) (pos : Nat) : chainRun operand separator fuel left pos =
    (repeatRun (pairRun operand separator) fuel pos).map (joinPairs left) := by
  induction fuel generalizing left pos with
  | zero => rfl
  | succ fuel ih =>
    cases hs : separator pos with
    | unfinished => simp [chainRun, repeatRun, pairRun, hs, Answer.bind, Answer.map]
    | failure => simp [chainRun, repeatRun, pairRun, hs, Answer.bind, Answer.map, joinPairs]
    | success join mid =>
      cases ho : operand mid with
      | unfinished => simp [chainRun, repeatRun, pairRun, hs, ho, Answer.bind, Answer.map]
      | failure => simp [chainRun, repeatRun, pairRun, hs, ho, Answer.bind, Answer.map, joinPairs]
      | success right next =>
        have hpair : pairRun operand separator pos = .success (join, right) next := by
          simp only [pairRun, hs, ho, Answer.bind, Answer.map]
        -- The first pair is joined before the others are, by the chain and by the fold.
        calc chainRun operand separator (fuel + 1) left pos
            = chainRun operand separator fuel (join left right) next := chainRun_of_round hs ho
          _ = (repeatRun (pairRun operand separator) fuel next).map (joinPairs (join left right)) := ih _ _
          _ = ((repeatRun (pairRun operand separator) fuel next).map ((join, right) :: ·)).map (joinPairs left) :=
            (Answer.map_map (joinPairs left) ((join, right) :: ·) _).symm
          _ = (repeatRun (pairRun operand separator) (fuel + 1) pos).map (joinPairs left) := by
            simp only [repeatRun, hpair]

theorem chainAt_iff {left v : α} {pos q : Nat} : ChainAt operand separator left pos v q ↔
    ∃ pairs, PairsAt operand separator pos pairs q ∧ NoPairAt operand separator q ∧ v = joinPairs left pairs := by
  constructor
  · intro h
    induction h with
    | absent hs => exact ⟨[], .nil, Or.inl hs, rfl⟩
    | dangling hs ho => exact ⟨[], .nil, Or.inr ⟨_, _, hs, ho⟩, rfl⟩
    | round hs ho _ ih =>
      obtain ⟨pairs, hp, hend, rfl⟩ := ih
      exact ⟨_ :: pairs, .cons hs ho hp, hend, rfl⟩
  · rintro ⟨pairs, hp, hend, rfl⟩
    induction hp generalizing left with
    | nil =>
      rcases hend with hs | ⟨join, mid, hs, ho⟩
      · exact .absent hs
      · exact .dangling hs ho
    | cons hs ho _ ih => exact .round hs ho (ih hend)

end

/-! ### Whole chains -/

theorem runWith_chainLeft_eq (ts : Array Token) (called : (n : ν) → Nat → Answer (ty n)) (fuel : Nat)
    (p : Parser ty α) (s : Parser ty (α → α → α)) (pos : Nat) :
    (chainLeft p s).runWith ts called fuel pos = (chainOfPairs p s).runWith ts called fuel pos := by
  rw [chainOfPairs, runWith, runWith, runWith]
  cases p.runWith ts called fuel pos with
  | success left mid =>
    show chainRun _ _ fuel left mid = (((rep (seq s p)).runWith ts called fuel mid).map (left, ·)).map _
    rw [chainRun_eq_map, Answer.map_map]
    rfl
  | _ => rfl

/-- A chain is an operand and a repetition of pairs, joined from the left. Its runs are the same, whatever is
    called in them and with whatever fuel, and so it gives the same, or goes on for ever alike. It succeeds in front
    of the first separator without an operand, or where none stands, with all pairs before that. -/
theorem chainLeft_eq_chainOfPairs (defs : Family ty) (ts : Array Token) (p : Parser ty α)
    (s : Parser ty (α → α → α)) (pos : Nat) :
    (∀ called fuel, (chainLeft p s).runWith ts called fuel pos = (chainOfPairs p s).runWith ts called fuel pos) ∧
    answer defs ts (chainLeft p s) pos = answer defs ts (chainOfPairs p s) pos ∧
    ∀ v q, answer defs ts (chainLeft p s) pos = .success v q ↔
      ∃ left mid pairs, answer defs ts p pos = .success left mid ∧
        PairsAt (answer defs ts p) (answer defs ts s) mid pairs q ∧
        NoPairAt (answer defs ts p) (answer defs ts s) q ∧ v = joinPairs left pairs := by
  refine ⟨fun called fuel => runWith_chainLeft_eq ts called fuel p s pos, ?_, fun v q => ?_⟩
  · exact answer_of_part id fun n => runWith_chainLeft_eq ts _ n p s pos
  · rw [answer_chainLeft_eq_success]
    constructor
    · rintro ⟨left, mid, hp, hc⟩
      obtain ⟨pairs, hpairs, hend, hv⟩ := chainAt_iff.mp hc
      exact ⟨left, mid, pairs, hp, hpairs, hend, hv⟩
    · rintro ⟨left, mid, pairs, hp, hpairs, hend, hv⟩
      exact ⟨left, mid, hp, chainAt_iff.mpr ⟨pairs, hpairs, hend, hv⟩⟩

/-- In `1 + ( 2` the operand behind the separator fails where the tokens end, and the separator is left. -/
example :
    let ts : Array Token := #[⟨"1", .numeral, ⟨1, 1⟩⟩, ⟨"+", .reserved, ⟨1, 3⟩⟩, ⟨"(", .reserved, ⟨1, 5⟩⟩,
      ⟨"2", .numeral, ⟨1, 7⟩⟩]
    let sums : Grammar.Rule Expr :=
      chainOfPairs Grammar.exprTerm (map Expr.binary (anyOperator Operator.symbol [.add, .sub]))
    sums.run Grammar.productions ts 6 0 = .success (.const 1) 1 := by decide +kernel

end Parser

end Imp
