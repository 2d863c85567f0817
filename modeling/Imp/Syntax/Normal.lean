import Imp.Syntax.Variables
import Imp.Token.Layout

/-! # Trees in normal form

A tree is in normal form if a source text can write it: its names are identifiers and not reserved,
its constants are not negative, and its sequences nest to the left, so that no sequence is the second
part of another. A sequence that nests otherwise has the same statements in the same order as one
that nests to the left, which `nestLeft` gives. -/

namespace Imp

/-! ### Constants -/

/-- The constants of an expression. -/
def Expr.constants : Expr → List Int64
  | const n => [n]
  | var _ => []
  | binary _ l r => l.constants ++ r.constants

/-- The constants of a condition. -/
def Cond.constants : Cond → List Int64
  | compare _ l r => l.constants ++ r.constants
  | and l r => l.constants ++ r.constants
  | or l r => l.constants ++ r.constants
  | not c => c.constants

namespace Stmt

/-- The constants of a statement. -/
def constants : Stmt → List Int64
  | assign _ v => v.constants
  | seq s t => s.constants ++ t.constants
  | when c s => c.constants ++ s.constants
  | branch c s t => c.constants ++ s.constants ++ t.constants
  | loop c s => c.constants ++ s.constants

/-! ### Sequences -/

/-- Whether a statement is a sequence. -/
def isSeq : Stmt → Bool
  | seq _ _ => true
  | _ => false

/-- No sequence is the second part of a sequence. -/
def NestsLeft : Stmt → Prop
  | assign _ _ => True
  | seq s t => s.NestsLeft ∧ t.NestsLeft ∧ t.isSeq = false
  | when _ s => s.NestsLeft
  | branch _ s t => s.NestsLeft ∧ t.NestsLeft
  | loop _ s => s.NestsLeft

/-- The sequence of a statement and the parts of another, nested to the left. -/
def append (s : Stmt) : Stmt → Stmt
  | seq t u => seq (s.append t) u
  | t => seq s t

/-- The statement with all its sequences nested to the left. -/
def nestLeft : Stmt → Stmt
  | assign x v => assign x v
  | seq s t => s.nestLeft.append t.nestLeft
  | when c s => when c s.nestLeft
  | branch c s t => branch c s.nestLeft t.nestLeft
  | loop c s => loop c s.nestLeft

/-- A source text can write the statement. -/
structure IsNormal (s : Stmt) : Prop where
  names : ∀ x ∈ s.names, Kind.name.Spells x
  constants : ∀ n ∈ s.constants, 0 ≤ n
  nestsLeft : s.NestsLeft

/-! ### Nesting to the left -/

theorem nestsLeft_append {s t : Stmt} (hs : s.NestsLeft) (ht : t.NestsLeft) : (s.append t).NestsLeft := by
  induction t with
  | seq t u iht => exact ⟨iht ht.1, ht.2⟩
  | _ => exact ⟨hs, ht, rfl⟩

theorem nestsLeft_nestLeft (s : Stmt) : s.nestLeft.NestsLeft := by
  induction s with
  | assign x v => trivial
  | seq s t ihs iht => exact nestsLeft_append ihs iht
  | «when» c s ih => exact ih
  | branch c s t ihs iht => exact ⟨ihs, iht⟩
  | loop c s ih => exact ih

theorem nestLeft_of_nestsLeft {s : Stmt} (h : s.NestsLeft) : s.nestLeft = s := by
  induction s with
  | assign x v => rfl
  | seq s t ihs iht =>
    obtain ⟨hs, ht, hn⟩ := h
    rw [nestLeft, ihs hs, iht ht]
    cases t with
    | seq => cases hn
    | _ => rfl
  | «when» c s ih => rw [nestLeft, ih h]
  | branch c s t ihs iht => rw [nestLeft, ihs h.1, iht h.2]
  | loop c s ih => rw [nestLeft, ih h]

end Stmt

end Imp
