import Imp.Parser.Finished

/-! # Runs within runs

The run of a parser is made of runs of its parts and of the definitions that it calls, each at a position of
its own. Which of them there are hangs on what has been answered before: the second of two parsers starts where
the first one ended, an alternative is tried behind a failure only, and a loop runs its parts anew in each
round, at the position that the rounds before have come to. -/

namespace Imp.Parser

variable {ν : Type} {ty : ν → Type}

/-- A round of a repetition goes from one position to another. -/
def RepeatRound {α : Type} (step : Nat → Answer α) (pos next : Nat) : Prop := ∃ v, step pos = .success v next

/-- A round of a chain takes a separator and the operand behind it. -/
def ChainRound {α : Type} (operand : Nat → Answer α) (separator : Nat → Answer (α → α → α)) (pos next : Nat) : Prop :=
  ∃ join mid right, separator pos = .success join mid ∧ operand mid = .success right next

/-- Some rounds of a loop lead from one position to another. -/
inductive Rounds (round : Nat → Nat → Prop) : Nat → Nat → Prop where
  | none {pos : Nat} : Rounds round pos pos
  | more {pos next q : Nat} : round pos next → Rounds round next q → Rounds round pos q

/-- The run of a parser at a position, the last two arguments, holds a run of `r` at `q`. -/
inductive Within (defs : Family ty) (ts : Array Token) {γ : Type} (r : Parser ty γ) (q : Nat) :
    {α : Type} → Parser ty α → Nat → Prop where
  | here : Within defs ts r q r q
  | first {α β : Type} {p : Parser ty α} {p' : Parser ty β} {pos : Nat} : Within defs ts r q p pos →
      Within defs ts r q (seq p p') pos
  | second {α β : Type} {p : Parser ty α} {p' : Parser ty β} {pos mid : Nat} {v : α} :
      answer defs ts p pos = .success v mid → Within defs ts r q p' mid → Within defs ts r q (seq p p') pos
  | left {α : Type} {p p' : Parser ty α} {pos : Nat} : Within defs ts r q p pos → Within defs ts r q (alt p p') pos
  | right {α : Type} {p p' : Parser ty α} {pos : Nat} : answer defs ts p pos = .failure →
      Within defs ts r q p' pos → Within defs ts r q (alt p p') pos
  | opt {α : Type} {p : Parser ty α} {pos : Nat} : Within defs ts r q p pos → Within defs ts r q (opt p) pos
  | rep {α : Type} {p : Parser ty α} {pos mid : Nat} : Rounds (RepeatRound (answer defs ts p)) pos mid →
      Within defs ts r q p mid → Within defs ts r q (rep p) pos
  | map {α β : Type} {f : α → β} {p : Parser ty α} {pos : Nat} : Within defs ts r q p pos →
      Within defs ts r q (map f p) pos
  | filterMap {α β : Type} {f : α → Option β} {p : Parser ty α} {pos : Nat} : Within defs ts r q p pos →
      Within defs ts r q (filterMap f p) pos
  | operand {α : Type} {p : Parser ty α} {s : Parser ty (α → α → α)} {pos : Nat} : Within defs ts r q p pos →
      Within defs ts r q (chainLeft p s) pos
  | separator {α : Type} {p : Parser ty α} {s : Parser ty (α → α → α)} {pos mid stop : Nat} {v : α} :
      answer defs ts p pos = .success v mid → Rounds (ChainRound (answer defs ts p) (answer defs ts s)) mid stop →
      Within defs ts r q s stop → Within defs ts r q (chainLeft p s) pos
  | nextOperand {α : Type} {p : Parser ty α} {s : Parser ty (α → α → α)} {pos mid stop next : Nat} {v : α}
      {join : α → α → α} : answer defs ts p pos = .success v mid →
      Rounds (ChainRound (answer defs ts p) (answer defs ts s)) mid stop →
      answer defs ts s stop = .success join next → Within defs ts r q p next → Within defs ts r q (chainLeft p s) pos
  | phrase {α : Type} {p : Parser ty α} {pos : Nat} : Within defs ts r q p pos → Within defs ts r q (phrase p) pos
  | call {n : ν} {pos : Nat} : Within defs ts r q (defs n) pos → Within defs ts r q (call n) pos

end Imp.Parser
