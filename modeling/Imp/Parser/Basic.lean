import Imp.Token

/-! # Parsers

A parser is a description: a tree of primitives and of ways to combine them. It knows nothing of the
language that it parses. What a parser calls by name stands in a family of definitions, which may
refer to one another and to themselves.

A run starts at a position in an array of tokens. It fails, or it succeeds with a value and the
position behind what it took; a failure takes nothing, so another parser can be tried at the same
position. A run may also go on for ever, when a definition calls itself without taking a token or a
parser that takes nothing is repeated. Runs therefore have a bound, the fuel, and a third answer when
it is used up. -/

namespace Imp

/-- Parsers for values of a type. The names are those of the definitions that may be called, and
    `ty` gives the type of value of each. -/
inductive Parser {ν : Type} (ty : ν → Type) : Type → Type 1 where
  /-- One token with this text and of this kind. -/
  | token (text : String) (kind : Kind) : Parser ty String
  /-- One token of this kind, whatever its text. -/
  | ofKind (kind : Kind) : Parser ty String
  /-- Nothing at all. -/
  | fail {α : Type} : Parser ty α
  /-- One parser, and then another. -/
  | seq {α β : Type} (p : Parser ty α) (q : Parser ty β) : Parser ty (α × β)
  /-- The first of two parsers that succeeds. -/
  | alt {α : Type} (p q : Parser ty α) : Parser ty α
  /-- A parser or, if it fails, nothing. -/
  | opt {α : Type} (p : Parser ty α) : Parser ty (Option α)
  /-- A parser again and again, until it fails. -/
  | rep {α : Type} (p : Parser ty α) : Parser ty (List α)
  /-- A parser, with a function applied to its value. -/
  | map {α β : Type} (f : α → β) (p : Parser ty α) : Parser ty β
  /-- A parser, with a function applied to its value. It fails where the function gives nothing. -/
  | filterMap {α β : Type} (f : α → Option β) (p : Parser ty α) : Parser ty β
  /-- Operands with separators between them. The value of a separator joins what stands to its left
      with the operand to its right. -/
  | chainLeft {α : Type} (operand : Parser ty α) (separator : Parser ty (α → α → α)) : Parser ty α
  /-- A parser that has to end where the tokens end. -/
  | phrase {α : Type} (p : Parser ty α) : Parser ty α
  /-- The parser that the family defines for a name. -/
  | call (n : ν) : Parser ty (ty n)

/-- A parser for each name. -/
abbrev Family {ν : Type} (ty : ν → Type) : Type 1 := (n : ν) → Parser ty (ty n)

/-- What comes of a run. -/
inductive Answer (α : Type) where
  /-- The fuel was used up. -/
  | unfinished
  | failure
  /-- A value, and the position behind the last token taken. -/
  | success (value : α) (next : Nat)
deriving DecidableEq, Repr

namespace Answer

/-- Goes on after a success, with the value and the position. -/
def bind {α β : Type} (a : Answer α) (f : α → Nat → Answer β) : Answer β :=
  match a with
  | unfinished => unfinished
  | failure => failure
  | success v next => f v next

/-- Applies a function to the value. -/
def map {α β : Type} (f : α → β) (a : Answer α) : Answer β :=
  a.bind fun v next => success (f v) next

/-- Applies a function to the value. Where the function gives nothing, the run has failed. -/
def filterMap {α β : Type} (f : α → Option β) (a : Answer α) : Answer β :=
  a.bind fun v next => (f v).elim failure (success · next)

/-- A success that ends elsewhere than at `stop` is a failure. -/
def endingAt {α : Type} (stop : Nat) (a : Answer α) : Answer α :=
  a.bind fun v next => if next = stop then success v next else failure

/-- Tries something else after a failure. -/
def orElse {α : Type} (a : Answer α) (b : Unit → Answer α) : Answer α :=
  match a with
  | failure => b ()
  | _ => a

/-- A failure is taken for a success without a value that ends at `pos`. -/
def optional {α : Type} (pos : Nat) (a : Answer α) : Answer (Option α) :=
  (a.map some).orElse fun _ => success none pos

/-- The value and the position of a success. -/
def toOption {α : Type} : Answer α → Option (α × Nat)
  | success v next => some (v, next)
  | _ => none

/-- A success as it is shown, with the text of its value. -/
def display {α : Type} (text : α → String) (a : Answer α) : Option String :=
  a.toOption.map fun r => "Result(" ++ text r.1 ++ ", " ++ toString r.2 ++ ")"

end Answer

namespace Parser

variable {ν μ : Type} {ty : ν → Type} {ty' : μ → Type} {α β : Type}

/-- A parser, with nothing known of the names on the left of the sum. -/
def inRight {α : Type} : Parser ty' α → Parser (Sum.elim ty ty') α
  | token text kind => token text kind
  | ofKind kind => ofKind kind
  | fail => fail
  | seq p q => seq p.inRight q.inRight
  | alt p q => alt p.inRight q.inRight
  | opt p => opt p.inRight
  | rep p => rep p.inRight
  | map f p => map f p.inRight
  | filterMap f p => filterMap f p.inRight
  | chainLeft p s => chainLeft p.inRight s.inRight
  | phrase p => phrase p.inRight
  | call n => call (Sum.inr n : ν ⊕ μ)

end Parser

end Imp
