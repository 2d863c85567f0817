import Imp.Parser.Basic

/-! # Well-formed families

A run goes on for ever if it repeats a parser that takes nothing, or if a definition comes back to
itself before it has taken a token. Whether a parser may succeed without taking a token, and which
definitions it may call before it has taken one, can be read off the descriptions: both relations
below err on the safe side only. A family is well-formed if none of its loops can stand still and no
definition can reach itself without taking a token. -/

namespace Imp.Parser

variable {ν : Type} {ty : ν → Type}

/-- The parser may succeed without taking a token. -/
inductive Nullable (defs : Family ty) : {α : Type} → Parser ty α → Prop where
  | seq {α β : Type} {p : Parser ty α} {q : Parser ty β} : Nullable defs p → Nullable defs q →
      Nullable defs (seq p q)
  | left {α : Type} {p q : Parser ty α} : Nullable defs p → Nullable defs (alt p q)
  | right {α : Type} {p q : Parser ty α} : Nullable defs q → Nullable defs (alt p q)
  | opt {α : Type} {p : Parser ty α} : Nullable defs (opt p)
  | rep {α : Type} {p : Parser ty α} : Nullable defs (rep p)
  | map {α β : Type} {f : α → β} {p : Parser ty α} : Nullable defs p → Nullable defs (map f p)
  | filterMap {α β : Type} {f : α → Option β} {p : Parser ty α} : Nullable defs p → Nullable defs (filterMap f p)
  | chainLeft {α : Type} {p : Parser ty α} {s : Parser ty (α → α → α)} : Nullable defs p →
      Nullable defs (chainLeft p s)
  | phrase {α : Type} {p : Parser ty α} : Nullable defs p → Nullable defs (phrase p)
  | call {n : ν} : Nullable defs (defs n) → Nullable defs (call n)

/-- The analysis of a parser in terms of its parts. -/
theorem nullable_iff {defs : Family ty} {α : Type} (p : Parser ty α) : Nullable defs p ↔
    match p with
    | token _ _ | ofKind _ | fail => False
    | seq p q => Nullable defs p ∧ Nullable defs q
    | alt p q => Nullable defs p ∨ Nullable defs q
    | opt _ | rep _ => True
    | map _ p | filterMap _ p | phrase p => Nullable defs p
    | chainLeft p _ => Nullable defs p
    | call n => Nullable defs (defs n) := by
  constructor
  · intro h
    cases h with
    | seq hp hq => exact ⟨hp, hq⟩
    | left h => exact Or.inl h
    | right h => exact Or.inr h
    | opt | rep => trivial
    | map h | filterMap h | chainLeft h | phrase h | call h => exact h
  · intro h
    cases p with
    | token | ofKind | fail => exact h.elim
    | seq => exact .seq h.1 h.2
    | alt => exact h.elim .left .right
    | opt => exact .opt
    | rep => exact .rep
    | map => exact .map h
    | filterMap => exact .filterMap h
    | chainLeft => exact .chainLeft h
    | phrase => exact .phrase h
    | call => exact .call h

/-- The parser may call the definition before it has taken a token. -/
def CallsFirst (defs : Family ty) (n : ν) : {α : Type} → Parser ty α → Prop
  | _, token _ _ => False
  | _, ofKind _ => False
  | _, fail => False
  | _, seq p q => CallsFirst defs n p ∨ Nullable defs p ∧ CallsFirst defs n q
  | _, alt p q => CallsFirst defs n p ∨ CallsFirst defs n q
  | _, opt p => CallsFirst defs n p
  | _, rep p => CallsFirst defs n p
  | _, map _ p => CallsFirst defs n p
  | _, filterMap _ p => CallsFirst defs n p
  | _, chainLeft p s => CallsFirst defs n p ∨ Nullable defs p ∧ CallsFirst defs n s
  | _, phrase p => CallsFirst defs n p
  | _, call m => m = n

/-- Each round of every loop in the parser takes a token. -/
def LoopsAdvance (defs : Family ty) : {α : Type} → Parser ty α → Prop
  | _, token _ _ => True
  | _, ofKind _ => True
  | _, fail => True
  | _, seq p q => LoopsAdvance defs p ∧ LoopsAdvance defs q
  | _, alt p q => LoopsAdvance defs p ∧ LoopsAdvance defs q
  | _, opt p => LoopsAdvance defs p
  | _, rep p => ¬ Nullable defs p ∧ LoopsAdvance defs p
  | _, map _ p => LoopsAdvance defs p
  | _, filterMap _ p => LoopsAdvance defs p
  | _, chainLeft p s => ¬ (Nullable defs p ∧ Nullable defs s) ∧ LoopsAdvance defs p ∧ LoopsAdvance defs s
  | _, phrase p => LoopsAdvance defs p
  | _, call _ => True

/-- No run of the family can go on for ever. -/
structure WellFormed (defs : Family ty) : Prop where
  loops : ∀ n, LoopsAdvance defs (defs n)
  calls : ∀ n, ¬ Relation.TransGen (fun m k => CallsFirst defs k (defs m)) n n

end Imp.Parser
