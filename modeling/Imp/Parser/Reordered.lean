import Imp.Parser.Finished

/-! # The order of alternatives

A choice tries its alternatives one after the other, and the first one that succeeds hides the others. A parser is
reordered by giving the alternatives of its choices other orders, each choice its own one wherever it stands. Where
at every position all alternatives of a choice but one fail, there is nothing to hide. -/

namespace Imp

/-- One of two answers is a failure. -/
def Answer.OneFails {α : Type} (a b : Answer α) : Prop := a = .failure ∨ b = .failure

namespace Parser

variable {ν : Type} {ty : ν → Type}

/-- The alternatives of a choice, in the order in which they are tried. What is no choice is its only alternative. -/
def alternatives {α : Type} : Parser ty α → List (Parser ty α)
  | alt p q => p.alternatives ++ q.alternatives
  | p => [p]

/-- The second parser is the first one with the alternatives of its choices in other orders. -/
inductive Reordered : {α : Type} → Parser ty α → Parser ty α → Prop where
  /-- One choice has the alternatives of the other. -/
  | choice {α : Type} {p q : Parser ty α} : p.alternatives.Perm q.alternatives → Reordered p q
  | trans {α : Type} {p q r : Parser ty α} : Reordered p q → Reordered q r → Reordered p r
  | seq {α β : Type} {p p' : Parser ty α} {q q' : Parser ty β} : Reordered p p' → Reordered q q' →
      Reordered (seq p q) (seq p' q')
  | alt {α : Type} {p p' q q' : Parser ty α} : Reordered p p' → Reordered q q' → Reordered (alt p q) (alt p' q')
  | opt {α : Type} {p p' : Parser ty α} : Reordered p p' → Reordered (opt p) (opt p')
  | rep {α : Type} {p p' : Parser ty α} : Reordered p p' → Reordered (rep p) (rep p')
  | map {α β : Type} {f : α → β} {p p' : Parser ty α} : Reordered p p' → Reordered (map f p) (map f p')
  | filterMap {α β : Type} {f : α → Option β} {p p' : Parser ty α} : Reordered p p' →
      Reordered (filterMap f p) (filterMap f p')
  | chainLeft {α : Type} {p p' : Parser ty α} {s s' : Parser ty (α → α → α)} : Reordered p p' → Reordered s s' →
      Reordered (chainLeft p s) (chainLeft p' s')
  | phrase {α : Type} {p p' : Parser ty α} : Reordered p p' → Reordered (phrase p) (phrase p')

theorem Reordered.refl {α : Type} (p : Parser ty α) : Reordered p p := .choice (.refl _)

/-- At no position do two alternatives of a choice in the parser succeed. -/
def Exclusive (defs : Family ty) (ts : Array Token) : {α : Type} → Parser ty α → Prop
  | _, token _ _ => True
  | _, ofKind _ => True
  | _, fail => True
  | _, seq p q => Exclusive defs ts p ∧ Exclusive defs ts q
  | _, alt p q => Exclusive defs ts p ∧ Exclusive defs ts q ∧
      ∀ pos, (answer defs ts p pos).OneFails (answer defs ts q pos)
  | _, opt p => Exclusive defs ts p
  | _, rep p => Exclusive defs ts p
  | _, map _ p => Exclusive defs ts p
  | _, filterMap _ p => Exclusive defs ts p
  | _, chainLeft p s => Exclusive defs ts p ∧ Exclusive defs ts s
  | _, phrase p => Exclusive defs ts p
  | _, call _ => True

/-- The parser `r` stands within another one, calls left aside. -/
inductive PartOf {γ : Type} (r : Parser ty γ) : {α : Type} → Parser ty α → Prop where
  | whole : PartOf r r
  | first {α β : Type} {p : Parser ty α} {q : Parser ty β} : PartOf r p → PartOf r (seq p q)
  | second {α β : Type} {p : Parser ty α} {q : Parser ty β} : PartOf r q → PartOf r (seq p q)
  | left {α : Type} {p q : Parser ty α} : PartOf r p → PartOf r (alt p q)
  | right {α : Type} {p q : Parser ty α} : PartOf r q → PartOf r (alt p q)
  | opt {α : Type} {p : Parser ty α} : PartOf r p → PartOf r (opt p)
  | rep {α : Type} {p : Parser ty α} : PartOf r p → PartOf r (rep p)
  | map {α β : Type} {f : α → β} {p : Parser ty α} : PartOf r p → PartOf r (map f p)
  | filterMap {α β : Type} {f : α → Option β} {p : Parser ty α} : PartOf r p → PartOf r (filterMap f p)
  | operand {α : Type} {p : Parser ty α} {s : Parser ty (α → α → α)} : PartOf r p → PartOf r (chainLeft p s)
  | separator {α : Type} {p : Parser ty α} {s : Parser ty (α → α → α)} : PartOf r s → PartOf r (chainLeft p s)
  | phrase {α : Type} {p : Parser ty α} : PartOf r p → PartOf r (phrase p)

end Parser

end Imp
