import Mathlib.Data.List.Nodup
import Mathlib.Data.Set.Function
import Imp.Proofs.Env.History
import Imp.Proofs.Semantics.Frame
import Imp.Proofs.Semantics.Rules

/-! # Runs under other names

A name is only ever compared with other names for equality. So if the variables of a statement and of its
environment are given other names, different ones for different variables, the statement runs as before, although
the bindings of its environment may come to stand in quite another order. Nothing is asked of the new names of
other variables. -/

namespace Imp

/-! ### Environments -/

namespace Env

variable {f : String → String} {e : Env} {x y : String} {n : Int64}

/-- The bindings of a renamed environment are those from before, under their new names. -/
theorem get?_rename_iff (hf : Set.InjOn f {x | e.contains x}) :
    (e.rename f).get? y = some n ↔ ∃ x, f x = y ∧ e.get? x = some n := by
  have hnodup : ((e.toList.map fun p => (f p.1, p.2)).map Prod.fst).Nodup := by
    have hmap : (e.toList.map fun p => (f p.1, p.2)).map Prod.fst = (e.toList.map Prod.fst).map f := by
      rw [List.map_map, List.map_map]
      rfl
    rw [hmap]
    exact (nodup_names e).map_on fun x hx y hy => hf (mem_names_iff.mp hx) (mem_names_iff.mp hy)
  rw [rename, get?_ofList_iff, givenLast_iff_mem hnodup, List.mem_map]
  constructor
  · rintro ⟨⟨x, m⟩, hmem, heq⟩
    obtain ⟨rfl, rfl⟩ := Prod.mk.inj heq
    exact ⟨x, rfl, mem_toList_iff.mp hmem⟩
  · rintro ⟨x, rfl, hx⟩
    exact ⟨(x, n), mem_toList_iff.mpr hx, rfl⟩

theorem contains_of_get? (h : e.get? x = some n) : e.contains x := by
  rw [contains, h]
  rfl

/-- The second environment is the first under other names, and all names of the first are in `P`. -/
structure Renamed (f : String → String) (P : Set String) (e e' : Env) : Prop where
  bound : ∀ x, e.contains x → x ∈ P
  eq : e' = e.rename f

namespace Renamed

variable {P : Set String} {e' : Env}

theorem get?_eq (h : Renamed f P e e') (hf : Set.InjOn f P) (hx : x ∈ P) : e'.get? (f x) = e.get? x := by
  rw [h.eq]
  refine Option.ext fun n => ?_
  rw [get?_rename_iff (hf.mono h.bound)]
  constructor
  · rintro ⟨y, hy, hget⟩
    rwa [← hf (h.bound y (contains_of_get? hget)) hx hy]
  · exact fun h => ⟨x, rfl, h⟩

theorem insert (h : Renamed f P e e') (hf : Set.InjOn f P) (hx : x ∈ P) :
    Renamed f P (e.insert x n) (e'.insert (f x) n) := by
  have hbound : ∀ y, (e.insert x n).contains y → y ∈ P := fun y hy => by
    rcases contains_insert.mp hy with rfl | hy
    · exact hx
    · exact h.bound y hy
  refine ⟨hbound, ext_get? fun y => Option.ext fun m => ?_⟩
  rw [get?_rename_iff (hf.mono hbound), get?_insert, h.eq]
  simp only [get?_insert]
  by_cases hy : y = f x
  · rw [if_pos hy]
    constructor
    · exact fun h => ⟨x, hy.symm, by rwa [if_pos rfl]⟩
    · rintro ⟨z, hz, hget⟩
      by_cases hzx : z = x
      · rwa [if_pos hzx] at hget
      · rw [if_neg hzx] at hget
        exact absurd (hf (h.bound z (contains_of_get? hget)) hx (hz.trans hy)) hzx
  · rw [if_neg hy, get?_rename_iff (hf.mono h.bound)]
    refine exists_congr fun z => and_congr_right fun hz => ?_
    have hzx : z ≠ x := fun h => hy (by rw [← hz, h])
    rw [if_neg hzx]

end Renamed

end Env

/-! ### Runs -/

/-- An outcome with other names. -/
def Outcome.rename (f : String → String) : Outcome → Outcome
  | done e => done (e.rename f)
  | stopped x e => stopped x (e.rename f)

namespace Stmt

variable {limit : Option UInt64} {f : String → String} {s : Stmt} {e : Env} {o : Outcome}

/-- The names that occur in a statement or are bound in its environment. -/
def namesIn (s : Stmt) (e : Env) : Set String := {x | x ∈ s.names ∨ e.contains x}

/-- The run under other names is the run itself, with other names in what it leaves, fuel by fuel. -/
theorem exec_rename (hf : Set.InjOn f (s.namesIn e)) (fuel : Nat) :
    (s.rename f).exec limit fuel (e.rename f) = (s.exec limit fuel e).map (Outcome.rename f) := by
  have hread : ∀ x ∈ s.names, ∀ a a', Env.Renamed f (s.namesIn e) a a' → a'.get (f x) = a.get x := fun x hx a a' h => by
    rw [Env.get, Env.get, h.get?_eq hf (Or.inl hx)]
  have hwrite : ∀ x ∈ s.assigned, ∀ a a' n, Env.Renamed f (s.namesIn e) a a' →
      Env.Renamed f (s.namesIn e) (a.insert x n) (a'.insert (f x) n) := fun x hx _ _ _ h =>
    h.insert hf (Or.inl (s.assigned_subset_names x hx))
  have hrel : Option.Rel (Outcome.Related (Env.Renamed f (s.namesIn e))) (s.exec limit fuel e)
      ((s.rename f).exec limit fuel (e.rename f)) :=
    exec_related hread hwrite fuel ⟨fun x hx => Or.inr hx, rfl⟩
  generalize s.exec limit fuel e = r at hrel
  generalize (s.rename f).exec limit fuel (e.rename f) = r' at hrel
  cases hrel with
  | none => rfl
  | some h =>
    cases h with
    | done h => rw [h.eq]; rfl
    | stopped h => rw [h.eq]; rfl

/-- Under other names, which are different for different variables of the statement and the environment, a statement
    goes on for ever if and only if it does so under the old ones. Otherwise it reaches its end as well, or the same
    fault stops it, and the environment that it leaves is the one from before under the new names, binding for
    binding. -/
theorem runs_rename (limit : Option UInt64) (hf : Set.InjOn f (s.namesIn e)) :
    ((s.rename f).Diverges limit (e.rename f) ↔ s.Diverges limit e) ∧
    (∀ o, (s.rename f).Ends limit (e.rename f) o ↔ ∃ o', s.Ends limit e o' ∧ o = o'.rename f) ∧
    ∀ o, s.Ends limit e o → ∀ y n, (o.env.rename f).get? y = some n ↔ ∃ x, f x = y ∧ o.env.get? x = some n := by
  refine ⟨?_, fun o => ?_, fun o ho y n => ?_⟩
  · simp only [Diverges, exec_rename hf, Option.map_eq_none_iff]
  · simp only [Ends, exec_rename hf, Option.map_eq_some_iff]
    constructor
    · rintro ⟨fuel, o', ho, rfl⟩
      exact ⟨o', ⟨fuel, ho⟩, rfl⟩
    · rintro ⟨o', ⟨fuel, ho⟩, rfl⟩
      exact ⟨fuel, o', ho, rfl⟩
  · refine Env.get?_rename_iff (hf.mono fun x hx => ?_)
    rcases ho.contains_or_assigned hx with hx | hx
    · exact Or.inr hx
    · exact Or.inl (s.assigned_subset_names x hx)

/-- The new names come in another order, and the name `b` would become that of `a` if it occurred. -/
theorem runs_rename_divisionByZero :
    let s := loop (.compare .lt (.var "a") (.const 3)) (seq (.assign "a" (.binary .add (.var "a") (.const 1)))
      (.assign "c" (.binary .div (.const 6) (.binary .sub (.const 2) (.var "a")))))
    let e := Env.ofList [("d", 5)]
    let f := fun x => if x = "a" ∨ x = "b" then "z" else if x = "c" then "d" else "a"
    Set.InjOn f (s.namesIn e) ∧
      s.Ends none e (.stopped .divisionByZero (.ofList [("a", 2), ("c", 6), ("d", 5)])) ∧
      (s.rename f).Ends none (.ofList [("a", 5)]) (.stopped .divisionByZero (.ofList [("a", 5), ("d", 6), ("z", 2)])) := by
  intro s e f
  have hf : Set.InjOn f (s.namesIn e) := by
    have hnames : ∀ x, x ∈ s.names ∨ e.contains x → x ∈ s.names ++ ["d"] := fun x hx =>
      List.mem_append.mpr (hx.imp_right Env.contains_ofList_iff.mp)
    have hlist : ∀ x ∈ s.names ++ ["d"], ∀ y ∈ s.names ++ ["d"], f x = f y → x = y := by decide
    exact fun x hx y hy => hlist x (hnames x hx) y (hnames y hy)
  have h : s.Ends none e (.stopped .divisionByZero (.ofList [("a", 2), ("c", 6), ("d", 5)])) := ⟨3, by decide⟩
  exact ⟨hf, h, ((runs_rename none hf).2.1 _).mpr ⟨_, h, by decide⟩⟩

end Stmt

end Imp
