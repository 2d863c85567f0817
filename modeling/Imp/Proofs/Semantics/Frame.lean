import Imp.Proofs.Semantics.Related

/-! # What a run leaves as it is

A run changes its environment only by storing, and stores only under the names that its statement assigns. Reading a
name binds nothing. A fault stops a run between two stores, so none of this needs the run to reach its end. -/

namespace Imp

theorem Env.contains_insert {e : Env} {x y : String} {n : Int64} :
    (e.insert x n).contains y = true ↔ y = x ∨ e.contains y = true := by
  rw [contains, contains, get?_insert]
  split
  · next heq => simp [heq]
  · next hne => simp [hne]

namespace Stmt

variable {limit : Option UInt64} {s : Stmt} {e : Env} {o : Outcome} {x : String}

/-- A name that is bound stays bound. -/
theorem Ends.contains (hx : e.contains x) (h : s.Ends limit e o) : o.env.contains x :=
  h.keeps (I := fun e => e.contains x) (fun _ _ _ _ he => Env.contains_insert.mpr (.inr he)) hx

/-- A name is bound from the start, or the statement assigns it. -/
theorem Ends.contains_or_assigned (h : s.Ends limit e o) (hx : o.env.contains x) : e.contains x ∨ x ∈ s.assigned := by
  refine h.keeps (I := fun e' => e'.contains x → e.contains x ∨ x ∈ s.assigned) (fun y hy e' n he' hin => ?_) .inl hx
  rcases Env.contains_insert.mp hin with rfl | hin
  · exact .inr hy
  · exact he' hin

/-- However a run ends, names that its statement does not assign are bound as before or not at all as before, no
    binding is lost, and each new one is to a name that the statement assigns. -/
theorem ends_frame (h : s.Ends limit e o) :
    (∀ x, x ∉ s.assigned → o.env.get? x = e.get? x) ∧
      (∀ x, e.contains x → o.env.contains x) ∧
      (∀ x, o.env.contains x → e.contains x ∨ x ∈ s.assigned) :=
  ⟨fun _ hx => h.get?_eq hx, fun _ hx => h.contains hx, fun _ hx => h.contains_or_assigned hx⟩

theorem ends_frame_divisionByZero :
    let s := loop (.compare .lt (.var "x") (.const 3)) (seq (.assign "x" (.binary .add (.var "x") (.const 1)))
      (.assign "y" (.binary .div (.const 6) (.binary .sub (.const 2) (.var "x")))))
    let e := Env.ofList [("z", 5)]
    let e' := Env.ofList [("x", 2), ("y", 6), ("z", 5)]
    s.Ends none e (.stopped .divisionByZero e') ∧ (∀ x, x ∉ s.assigned → e'.get? x = e.get? x) ∧
      (∀ x, e.contains x → e'.contains x) ∧ (∀ x, e'.contains x → e.contains x ∨ x ∈ s.assigned) := by
  intro s e e'
  have h : s.Ends none e (.stopped .divisionByZero e') := ⟨3, by decide⟩
  exact ⟨h, ends_frame h⟩

end Stmt

end Imp
