import Imp.Proofs.Grammar.LongestMatch
import Imp.Proofs.Parser.Within

/-! # Parsing comes to an end

Every production takes a token before it calls any production, and every separator of its chains is a token. So
productions are entered again further on only, each round of a chain moves on, and the tokens that are left bound
both: the fuel that a run of the grammar begins with is enough, and more of it changes no answer. -/

namespace Imp

namespace Parser

variable {ν : Type} {ty : ν → Type} {α β ω : Type} {defs : Family ty}

/-! ### Parsers that begin with a token -/

/-- The parser takes a token before it calls anything and before it succeeds. -/
structure TakesFirst (defs : Family ty) (p : Parser ty α) : Prop where
  not_nullable : ¬ Nullable defs p
  not_callsFirst : ∀ k, ¬ CallsFirst defs k p

namespace TakesFirst

variable {p q : Parser ty α} {r : Parser ty β}

theorem token (text : String) (kind : Kind) : TakesFirst defs (.token text kind : Parser ty String) :=
  ⟨(nullable_iff _).mp, fun _ => id⟩

theorem ofKind (kind : Kind) : TakesFirst defs (.ofKind kind : Parser ty String) :=
  ⟨(nullable_iff _).mp, fun _ => id⟩

theorem seq (hp : TakesFirst defs p) : TakesFirst defs (.seq p r) where
  not_nullable h := hp.not_nullable ((nullable_iff _).mp h).1
  not_callsFirst k h := by
    rcases h with h | ⟨h, -⟩
    · exact hp.not_callsFirst k h
    · exact hp.not_nullable h

theorem alt (hp : TakesFirst defs p) (hq : TakesFirst defs q) : TakesFirst defs (.alt p q) where
  not_nullable h := ((nullable_iff _).mp h).elim hp.not_nullable hq.not_nullable
  not_callsFirst k h := h.elim (hp.not_callsFirst k) (hq.not_callsFirst k)

theorem map (f : α → β) (hp : TakesFirst defs p) : TakesFirst defs (.map f p) :=
  ⟨fun h => hp.not_nullable ((nullable_iff _).mp h), hp.not_callsFirst⟩

theorem filterMap (f : α → Option β) (hp : TakesFirst defs p) : TakesFirst defs (.filterMap f p) :=
  ⟨fun h => hp.not_nullable ((nullable_iff _).mp h), hp.not_callsFirst⟩

theorem phrase (hp : TakesFirst defs p) : TakesFirst defs (.phrase p) :=
  ⟨fun h => hp.not_nullable ((nullable_iff _).mp h), hp.not_callsFirst⟩

theorem chainLeft {s : Parser ty (α → α → α)} (hp : TakesFirst defs p) : TakesFirst defs (.chainLeft p s) where
  not_nullable h := hp.not_nullable ((nullable_iff _).mp h)
  not_callsFirst k h := by
    rcases h with h | ⟨h, -⟩
    · exact hp.not_callsFirst k h
    · exact hp.not_nullable h

theorem precedence {symbol : ω → String} {join : ω → α → α → α} (levels : List (List ω)) (hp : TakesFirst defs p) :
    TakesFirst defs (Parser.precedence symbol join levels p) := by
  induction levels generalizing p with
  | nil => exact hp
  | cons ops levels ih => exact ih hp.chainLeft

end TakesFirst

/-! ### Loops that move on -/

theorem loopsAdvance_anyOperator (symbol : ω → String) (ops : List ω) :
    LoopsAdvance defs (anyOperator symbol ops : Parser ty ω) := by
  induction ops with
  | nil => trivial
  | cons op ops ih => exact ⟨trivial, ih⟩

theorem loopsAdvance_chainLeft {p : Parser ty α} {s : Parser ty (α → α → α)} (hp : TakesFirst defs p)
    (hl : LoopsAdvance defs p) (hs : LoopsAdvance defs s) : LoopsAdvance defs (chainLeft p s) :=
  ⟨fun h => hp.not_nullable h.1, hl, hs⟩

theorem loopsAdvance_precedence {symbol : ω → String} {join : ω → α → α → α} {p : Parser ty α} (levels : List (List ω))
    (hp : TakesFirst defs p) (hl : LoopsAdvance defs p) : LoopsAdvance defs (precedence symbol join levels p) := by
  induction levels generalizing p with
  | nil => exact hl
  | cons ops levels ih => exact ih hp.chainLeft (loopsAdvance_chainLeft hp hl (loopsAdvance_anyOperator symbol ops))

end Parser

namespace Grammar

open Imp.Parser

variable {ts : Array Token} {pos : Nat}

/-! ### The productions -/

theorem takesFirst_group {α : Type} (p : Rule α) : TakesFirst productions (group p) := .map _ (.seq (.seq (.token _ _)))

theorem takesFirst_exprTerm : TakesFirst productions exprTerm :=
  .alt (.alt (.map _ (.filterMap _ (.ofKind _))) (.map _ (.ofKind _))) (takesFirst_group _)

theorem takesFirst_expr : TakesFirst productions expr := takesFirst_exprTerm.precedence _

theorem takesFirst_condTerm : TakesFirst productions condTerm :=
  .alt (.alt (.map _ (.seq (.token _ _))) (.map _ (.seq (.seq takesFirst_expr)))) (takesFirst_group _)

theorem takesFirst_statement : TakesFirst productions statement :=
  .alt (.alt (.map _ (.seq (.seq (.ofKind _)))) (.map _ (.seq (.seq (.seq (.seq (.seq (.token _ _))))))))
    (.map _ (.seq (.seq (.seq (.seq (.token _ _))))))

theorem takesFirst_productions (n : Production) : TakesFirst productions (productions n) := by
  cases n with
  | expr => exact takesFirst_expr
  | cond => exact takesFirst_condTerm.precedence _
  | condTerm => exact takesFirst_condTerm
  | block => exact takesFirst_statement.chainLeft

theorem loopsAdvance_exprTerm : LoopsAdvance productions exprTerm :=
  ⟨⟨trivial, trivial⟩, ⟨trivial, trivial⟩, trivial⟩

theorem loopsAdvance_expr : LoopsAdvance productions expr :=
  loopsAdvance_precedence _ takesFirst_exprTerm loopsAdvance_exprTerm

theorem loopsAdvance_condTerm : LoopsAdvance productions condTerm :=
  ⟨⟨⟨trivial, trivial⟩, ⟨loopsAdvance_expr, loopsAdvance_anyOperator _ _⟩, loopsAdvance_expr⟩, ⟨trivial, trivial⟩, trivial⟩

theorem loopsAdvance_cond : LoopsAdvance productions cond :=
  loopsAdvance_precedence _ takesFirst_condTerm loopsAdvance_condTerm

theorem loopsAdvance_statement : LoopsAdvance productions statement := by
  have hc := loopsAdvance_cond
  have he := loopsAdvance_expr
  simp [statement, assignment, choice, loop, keyword, anyBlock, LoopsAdvance, hc, he]

theorem loopsAdvance_productions (n : Production) : LoopsAdvance productions (productions n) := by
  cases n with
  | expr => exact loopsAdvance_expr
  | cond => exact loopsAdvance_cond
  | condTerm => exact loopsAdvance_condTerm
  | block => exact loopsAdvance_chainLeft takesFirst_statement loopsAdvance_statement trivial

/-! ### Termination -/

/-- How the run of a parser of the grammar comes to an end. -/
structure Terminates (ts : Array Token) {α : Type} (p : Rule α) (pos : Nat) : Prop where
  /-- It succeeds or fails. -/
  finished : run p ts pos = .failure ∨ ∃ v q, run p ts pos = .success v q
  /-- The fuel is the number of tokens that are left and two more. Any more gives the same answer. -/
  fuel : ∀ n, ts.size - pos + 2 ≤ n → p.run productions ts n pos = run p ts pos
  /-- It asks for no calls but those on the way: what other calls answer makes no difference. -/
  calls : ∀ called : (n : Production) → Nat → Answer n.Value,
    (∀ n q, Within productions ts (call n) q p pos → called n q = answer productions ts (call n) q) →
      p.runWith ts called (ts.size - pos + 2) pos = run p ts pos
  /-- A production that is called on the way, within others or not, is entered further on. -/
  reentry : ∀ n q, Within productions ts (call n) q p pos → pos < q
  /-- Each round of a chain on the way takes a token. -/
  rounds : ∀ {β : Type} (r : Rule β) s q, Within productions ts (chainLeft r s) q p pos →
    ∀ i j, ChainRound (answer productions ts r) (answer productions ts s) i j → i < j

theorem Terminates.of_finished {α : Type} {p : Rule α} (hrun : run p ts pos ≠ .unfinished)
    (hp : TakesFirst productions p) (hl : LoopsAdvance productions p) : Terminates ts p pos where
  finished := by
    cases h : run p ts pos with
    | unfinished => exact absurd h hrun
    | failure => exact Or.inl rfl
    | success v q => exact Or.inr ⟨v, q, rfl⟩
  fuel n hn := ((run_upto hn p pos).eq hrun).symm
  calls called h := by
    refine ((runWith_upto_of_within fun n q hw => ?_).eq hrun).symm
    rw [h n q hw]
    exact runCall_upto_answer _ n q
  reentry n q h := h.lt_of_call hp.not_callsFirst
  rounds r s q h i j hr := hr.lt (h.loopsAdvance loopsAdvance_productions hl)

/-- At every position of any tokens, the runs of all productions and of programs come to an end, and so with as much
    fuel as there are tokens left and two more. Every production within them is entered further on. -/
theorem parsing_terminates (ts : Array Token) (pos : Nat) :
    (∀ n, Terminates ts (productions n) pos) ∧ Terminates ts program pos := by
  refine ⟨fun n => .of_finished (run_reads ts n pos).finished (takesFirst_productions n) (loopsAdvance_productions n), ?_⟩
  have hblock : run block ts pos ≠ .unfinished := (run_reads ts .block pos).finished
  refine .of_finished ?_ (takesFirst_productions .block).phrase (loopsAdvance_productions .block)
  rw [run_program_eq]
  exact Answer.endingAt_finished hblock

end Grammar

end Imp
