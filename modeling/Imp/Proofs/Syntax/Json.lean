import Imp.Json.Same
import Imp.Proofs.Printing.Numerals
import Imp.Syntax.Json

/-! # Trees written as JSON and read back

What is written for a tree is read as that tree, also if the fields of its objects come in another order. So
different trees are written as different values, and no order of the fields makes them the same. This holds for
all trees: any text may be a name, any word a constant, and sequences may nest in any way. For each form of a tree
there is one fact about reading it, from the parts that it asks for. -/

namespace Imp

variable {j v : Json}

/-! ### Operators and constants -/

theorem Operator.ofName?_name (op : Operator) : ofName? op.name = some op := by cases op <;> rfl

theorem Comparison.ofName?_name (op : Comparison) : ofName? op.name = some op := by cases op <;> rfl

theorem Json.Same.int64? {n : Int64} (h : (int n.toInt).Same j) : j.int64? = some n := by
  rw [Json.int64?, h.int?, Option.bind_eq_bind, Option.bind_some, Numeral.int64?_toInt]

/-! ### Expressions -/

namespace Expr

theorem ofJson?_const (h : j.variant? = some ("Int", v)) : ofJson? j = v.int64?.map const := by
  rw [ofJson?]
  split <;> simp_all

theorem ofJson?_var (h : j.variant? = some ("Var", v)) : ofJson? j = v.string?.map var := by
  rw [ofJson?]
  split <;> simp_all

theorem ofJson?_binary {jl jr : Json} (h : j.variant? = some ("BinOp", v)) (hl : v.field? "left" = some jl)
    (hr : v.field? "right" = some jr) : ofJson? j = (do
      let op ← v.field? "op" >>= Json.string? >>= Operator.ofName?
      return binary op (← ofJson? jl) (← ofJson? jr)) := by
  rw [ofJson?]
  split
  case h_3 heq =>
    -- The parts are read with a proof that they are smaller, so the fields have to be found by cases.
    cases h.symm.trans heq
    split <;> simp_all
  all_goals simp_all

theorem ofJson?_of_same (a : Expr) {j : Json} (h : a.toJson.Same j) : ofJson? j = some a := by
  induction a generalizing j with
  | const n =>
    obtain ⟨v, hj, hv⟩ := Json.Same.variant? h
    rw [ofJson?_const hj, hv.int64?]
    rfl
  | var x =>
    obtain ⟨v, hj, hv⟩ := Json.Same.variant? h
    rw [ofJson?_var hj, hv.string?]
    rfl
  | binary op l r ihl ihr =>
    obtain ⟨v, hj, hv⟩ := Json.Same.variant? h
    have hop : (v.field? "op" >>= Json.string? >>= Operator.ofName?) = some op := by
      rw [hv.read_field (by simp) "op" (.head _) fun _ h => h.string?]
      exact op.ofName?_name
    obtain ⟨jl, hl, hjl⟩ := hv.field? (by simp) "left" (.tail _ (.head _))
    obtain ⟨jr, hr, hjr⟩ := hv.field? (by simp) "right" (.tail _ (.tail _ (.head _)))
    rw [ofJson?_binary hj hl hr, hop, ihl hjl, ihr hjr]
    rfl

end Expr

/-! ### Conditions -/

namespace Cond

theorem ofJson?_compare (h : j.variant? = some ("Relop", v)) : ofJson? j = (do
    let op ← v.field? "op" >>= Json.string? >>= Comparison.ofName?
    let l ← v.field? "left" >>= Expr.ofJson?
    let r ← v.field? "right" >>= Expr.ofJson?
    return compare op l r) := by
  rw [ofJson?]
  split <;> simp_all

theorem ofJson?_and {jl jr : Json} (h : j.variant? = some ("And", v)) (hp : v.pair? = some (jl, jr)) :
    ofJson? j = (do return and (← ofJson? jl) (← ofJson? jr)) := by
  rw [ofJson?]
  split
  case h_2 heq =>
    cases h.symm.trans heq
    split <;> simp_all
  all_goals simp_all

theorem ofJson?_or {jl jr : Json} (h : j.variant? = some ("Or", v)) (hp : v.pair? = some (jl, jr)) :
    ofJson? j = (do return or (← ofJson? jl) (← ofJson? jr)) := by
  rw [ofJson?]
  split
  case h_3 heq =>
    cases h.symm.trans heq
    split <;> simp_all
  all_goals simp_all

theorem ofJson?_not (h : j.variant? = some ("Not", v)) : ofJson? j = (ofJson? v).map not := by
  rw [ofJson?]
  split <;> simp_all

theorem ofJson?_of_same (c : Cond) {j : Json} (h : c.toJson.Same j) : ofJson? j = some c := by
  induction c generalizing j with
  | compare op l r =>
    obtain ⟨v, hj, hv⟩ := Json.Same.variant? h
    have hop : (v.field? "op" >>= Json.string? >>= Comparison.ofName?) = some op := by
      rw [hv.read_field (by simp) "op" (.head _) fun _ h => h.string?]
      exact op.ofName?_name
    have hl := hv.read_field (by simp) "left" (.tail _ (.head _)) fun _ h => l.ofJson?_of_same h
    have hr := hv.read_field (by simp) "right" (.tail _ (.tail _ (.head _))) fun _ h => r.ofJson?_of_same h
    rw [ofJson?_compare hj, hop, hl, hr]
    rfl
  | and l r ihl ihr =>
    obtain ⟨v, hj, hv⟩ := Json.Same.variant? h
    obtain ⟨jl, jr, hp, hjl, hjr⟩ := hv.pair?
    rw [ofJson?_and hj hp, ihl hjl, ihr hjr]
    rfl
  | or l r ihl ihr =>
    obtain ⟨v, hj, hv⟩ := Json.Same.variant? h
    obtain ⟨jl, jr, hp, hjl, hjr⟩ := hv.pair?
    rw [ofJson?_or hj hp, ihl hjl, ihr hjr]
    rfl
  | not c ih =>
    obtain ⟨v, hj, hv⟩ := Json.Same.variant? h
    rw [ofJson?_not hj, ih hv]
    rfl

end Cond

/-! ### Statements -/

namespace Stmt

theorem ofJson?_assign (h : j.variant? = some ("Assign", v)) : ofJson? j = (do
    let x ← v.field? "name" >>= Json.string?
    let e ← v.field? "value" >>= Expr.ofJson?
    return assign x e) := by
  rw [ofJson?]
  split <;> simp_all

theorem ofJson?_seq {js jt : Json} (h : j.variant? = some ("Compound", v)) (hs : v.field? "first" = some js)
    (ht : v.field? "second" = some jt) : ofJson? j = (do return seq (← ofJson? js) (← ofJson? jt)) := by
  rw [ofJson?]
  split
  case h_2 heq =>
    cases h.symm.trans heq
    split <;> simp_all
  all_goals simp_all

/-- A missing alternative is `null`, or its field is absent. -/
theorem ofJson?_when {js : Json} (h : j.variant? = some ("If", v)) (hs : v.field? "then_branch" = some js)
    (ht : v.field? "else_branch" = none ∨ v.field? "else_branch" = some .null) : ofJson? j = (do
      let c ← v.field? "condition" >>= Cond.ofJson?
      return .when c (← ofJson? js)) := by
  rw [ofJson?]
  split
  case h_3 heq =>
    cases h.symm.trans heq
    split <;> simp_all
  all_goals simp_all

theorem ofJson?_branch {js jt : Json} (h : j.variant? = some ("If", v)) (hs : v.field? "then_branch" = some js)
    (ht : v.field? "else_branch" = some jt) (hne : jt ≠ .null) : ofJson? j = (do
      let c ← v.field? "condition" >>= Cond.ofJson?
      return branch c (← ofJson? js) (← ofJson? jt)) := by
  rw [ofJson?]
  split
  case h_3 heq =>
    cases h.symm.trans heq
    split <;> simp_all
  all_goals simp_all

theorem ofJson?_loop {js : Json} (h : j.variant? = some ("While", v)) (hs : v.field? "body" = some js) :
    ofJson? j = (do
      let c ← v.field? "condition" >>= Cond.ofJson?
      return loop c (← ofJson? js)) := by
  rw [ofJson?]
  split
  case h_4 heq =>
    cases h.symm.trans heq
    split <;> simp_all
  all_goals simp_all

/-- A statement that is there is not written as one that is missing. -/
theorem ne_null_of_same {s : Stmt} (h : s.toJson.Same j) : j ≠ .null := by
  rintro rfl
  cases s <;> cases h

theorem ofJson?_of_same (s : Stmt) {j : Json} (h : s.toJson.Same j) : ofJson? j = some s := by
  induction s generalizing j with
  | assign x a =>
    obtain ⟨v, hj, hv⟩ := Json.Same.variant? h
    have hx := hv.read_field (by simp) "name" (.head _) fun _ h => h.string?
    have ha := hv.read_field (by simp) "value" (.tail _ (.head _)) fun _ h => a.ofJson?_of_same h
    rw [ofJson?_assign hj, hx, ha]
    rfl
  | seq s t ihs iht =>
    obtain ⟨v, hj, hv⟩ := Json.Same.variant? h
    obtain ⟨js, hs, hjs⟩ := hv.field? (by simp) "first" (.head _)
    obtain ⟨jt, ht, hjt⟩ := hv.field? (by simp) "second" (.tail _ (.head _))
    rw [ofJson?_seq hj hs ht, ihs hjs, iht hjt]
    rfl
  | «when» c s ih =>
    obtain ⟨v, hj, hv⟩ := Json.Same.variant? h
    have hc := hv.read_field (by simp) "condition" (.head _) fun _ h => c.ofJson?_of_same h
    obtain ⟨js, hs, hjs⟩ := hv.field? (by simp) "then_branch" (.tail _ (.head _))
    obtain ⟨jt, ht, hjt⟩ := hv.field? (by simp) "else_branch" (.tail _ (.tail _ (.head _)))
    -- Nothing but `null` is the same as `null`.
    cases hjt
    rw [ofJson?_when hj hs (.inr ht), hc, ih hjs]
    rfl
  | branch c s t ihs iht =>
    obtain ⟨v, hj, hv⟩ := Json.Same.variant? h
    have hc := hv.read_field (by simp) "condition" (.head _) fun _ h => c.ofJson?_of_same h
    obtain ⟨js, hs, hjs⟩ := hv.field? (by simp) "then_branch" (.tail _ (.head _))
    obtain ⟨jt, ht, hjt⟩ := hv.field? (by simp) "else_branch" (.tail _ (.tail _ (.head _)))
    rw [ofJson?_branch hj hs ht (ne_null_of_same hjt), hc, ihs hjs, iht hjt]
    rfl
  | loop c s ih =>
    obtain ⟨v, hj, hv⟩ := Json.Same.variant? h
    have hc := hv.read_field (by simp) "condition" (.head _) fun _ h => c.ofJson?_of_same h
    obtain ⟨js, hs, hjs⟩ := hv.field? (by simp) "body" (.tail _ (.head _))
    rw [ofJson?_loop hj hs, hc, ih hjs]
    rfl

end Stmt

/-- The JSON of an expression, a condition or a statement loses nothing. -/
theorem Json.trees_lossless : Json.Lossless Expr.toJson Expr.ofJson? ∧ Json.Lossless Cond.toJson Cond.ofJson? ∧
    Json.Lossless Stmt.toJson Stmt.ofJson? :=
  ⟨.of_read fun a _ => a.ofJson?_of_same, .of_read fun c _ => c.ofJson?_of_same, .of_read fun s _ => s.ofJson?_of_same⟩

end Imp
