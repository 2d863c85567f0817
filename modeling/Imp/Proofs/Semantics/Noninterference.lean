import Imp.Proofs.Semantics.Related
import Imp.Proofs.Semantics.Rules

/-! # Runs and the names that do not occur in them

All that a run can learn of its environment are the values of the names that occur in its statement. A name
without a binding has the value zero, and no run tells it from one that is bound to zero. So from environments
with the same values for these names a statement runs in the same way, whatever other names are bound to. -/

namespace Imp

/-- These names have the same values in both environments. A name may be bound to zero in the one and unbound in
    the other. -/
def Env.AgreeOn (names : List String) (e e' : Env) : Prop := ∀ x ∈ names, e'.get x = e.get x

instance (names : List String) (e e' : Env) : Decidable (e.AgreeOn names e') :=
  inferInstanceAs (Decidable (∀ x ∈ names, _))

namespace Env.AgreeOn

variable {names : List String} {e e' : Env}

theorem symm (h : e.AgreeOn names e') : e'.AgreeOn names e := fun x hx => (h x hx).symm

theorem insert (h : e.AgreeOn names e') (x : String) (n : Int64) : (e.insert x n).AgreeOn names (e'.insert x n) := by
  intro y hy
  rw [get_insert, get_insert, h y hy]

end Env.AgreeOn

namespace Stmt

variable {limit : Option UInt64} {s : Stmt} {e e' : Env} {o : Outcome}

/-- A run that ends, ends in the same way from an environment that agrees on the names of its statement. -/
theorem Ends.agreeOn (h : e.AgreeOn s.names e') (ho : s.Ends limit e o) :
    ∃ o', s.Ends limit e' o' ∧ Outcome.Related (Env.AgreeOn s.names) o o' :=
  ho.alike (fun x hx _ _ hab => hab x hx) (fun x _ _ _ n hab => hab.insert x n) h

theorem Diverges.agreeOn (h : e.AgreeOn s.names e') (hd : s.Diverges limit e) : s.Diverges limit e' := by
  rw [diverges_iff] at hd ⊢
  intro o' ho'
  obtain ⟨o, ho, -⟩ := ho'.agreeOn h.symm
  exact hd o ho

/-- From environments that agree on the names that occur in it, a statement runs in the same way: it goes on for
    ever from both, reaches its end from both, or the same fault stops it. The environments that it leaves agree
    on these names again. -/
theorem ends_of_agreeOn (limit : Option UInt64) (h : e.AgreeOn s.names e') :
    (s.Diverges limit e ∧ s.Diverges limit e') ∨
    (∃ a a', s.Ends limit e (.done a) ∧ s.Ends limit e' (.done a') ∧ a.AgreeOn s.names a') ∨
    ∃ f a a', s.Ends limit e (.stopped f a) ∧ s.Ends limit e' (.stopped f a') ∧ a.AgreeOn s.names a' := by
  by_cases hends : ∃ o, s.Ends limit e o
  · obtain ⟨o, ho⟩ := hends
    obtain ⟨o', ho', hrel⟩ := ho.agreeOn h
    cases hrel with
    | done ha => exact Or.inr (Or.inl ⟨_, _, ho, ho', ha⟩)
    | stopped ha => exact Or.inr (Or.inr ⟨_, _, _, ho, ho', ha⟩)
  · have hd : s.Diverges limit e := diverges_iff.mpr (not_exists.mp hends)
    exact Or.inl ⟨hd, hd.agreeOn h⟩

/-- One environment binds `x` to zero and another name, the other binds neither. -/
theorem ends_of_agreeOn_divisionByZero :
    let s := loop (.compare .lt (.var "x") (.const 3)) (seq (.assign "x" (.binary .add (.var "x") (.const 1)))
      (.assign "y" (.binary .div (.const 6) (.binary .sub (.const 2) (.var "x")))))
    let e := Env.ofList [("x", 0), ("z", 5)]
    let a := Env.ofList [("x", 2), ("y", 6), ("z", 5)]
    e.AgreeOn s.names .empty ∧ s.Ends none e (.stopped .divisionByZero a) ∧
      ∃ a', s.Ends none .empty (.stopped .divisionByZero a') ∧ a.AgreeOn s.names a' := by
  intro s e a
  have hagree : e.AgreeOn s.names .empty := by decide
  have h : s.Ends none e (.stopped .divisionByZero a) := ⟨3, by decide⟩
  refine ⟨hagree, h, ?_⟩
  rcases ends_of_agreeOn none hagree with ⟨hd, -⟩ | ⟨_, _, hdone, -⟩ | ⟨f, b, a', hstop, hstop', ha⟩
  · exact absurd h (diverges_iff.mp hd _)
  · cases h.unique hdone
  · cases h.unique hstop
    exact ⟨a', hstop', ha⟩

end Stmt

end Imp
