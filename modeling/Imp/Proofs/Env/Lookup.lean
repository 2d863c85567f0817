import Imp.Env

/-! # What an environment binds

Storing changes what is bound to one name and nothing else. As the bindings stand in the order of their
names, what is bound to each name is all that there is to an environment. -/

/-- Among pairs with different names, the one that is looked up is the one with that name. -/
theorem Imp.lookup_eq_some_iff_mem {α : Type} {l : List (String × α)} (hl : (l.map Prod.fst).Nodup) {x : String}
    {a : α} : l.lookup x = some a ↔ (x, a) ∈ l := by
  rw [List.lookup_eq_some_iff]
  constructor
  · rintro ⟨before, after, rfl, -⟩
    exact List.mem_append_right _ List.mem_cons_self
  · intro h
    obtain ⟨before, after, rfl⟩ := List.append_of_mem h
    rw [List.map_append, List.nodup_append] at hl
    refine ⟨before, after, rfl, fun p hp => bne_iff_ne.mpr ?_⟩
    exact (hl.2.2 p.1 (List.mem_map_of_mem hp) x (List.mem_map_of_mem List.mem_cons_self)).symm

namespace Imp.Env

variable {x y : String} {n : Int64} {l l' : List (String × Int64)} {e e' : Env}

theorem lookup_cons (p : String × Int64) : (p :: l).lookup y = if y = p.1 then some p.2 else l.lookup y := by
  rw [List.lookup_cons]
  by_cases h : y = p.1
  · simp [h]
  · rw [beq_false_of_ne h, if_neg h]

theorem lookup_store : (store x n l).lookup y = if y = x then some n else l.lookup y := by
  induction l with
  | nil => exact lookup_cons (x, n)
  | cons p r ih =>
    simp only [store]
    split
    · exact lookup_cons (x, n)
    · split
      · next heq =>
        rw [lookup_cons, lookup_cons, heq]
        split <;> rfl
      · next hne =>
        rw [lookup_cons, lookup_cons, ih]
        by_cases hy : y = p.1
        · have hyx : y ≠ x := fun h => hne (h.symm.trans hy)
          rw [if_pos hy, if_neg hyx, if_pos hy]
        · rw [if_neg hy, if_neg hy]

theorem get?_insert : (e.insert x n).get? y = if y = x then some n else e.get? y := lookup_store

theorem get_insert : (e.insert x n).get y = if y = x then n else e.get y := by
  rw [get, get, get?_insert]
  split <;> rfl

/-! ### Extensionality -/

theorem lookup_eq_none_of_lt (h : ∀ p ∈ l, x < p.1) : l.lookup x = none := by
  induction l with
  | nil => rfl
  | cons p r ih =>
    obtain ⟨hp, hr⟩ := List.forall_mem_cons.mp h
    have hne : x ≠ p.1 := fun heq => String.lt_irrefl x (heq ▸ hp)
    rw [lookup_cons, if_neg hne, ih hr]

/-- The first name of the one is not in front of the first name of the other. -/
theorem not_lt_of_lookup {p q : String × Int64} (hl' : (q :: l').Pairwise fun a b => a.1 < b.1)
    (h : (p :: l).lookup p.1 = (q :: l').lookup p.1) : ¬ p.1 < q.1 := by
  intro hlt
  have hnone : (q :: l').lookup p.1 = none := by
    refine lookup_eq_none_of_lt (List.forall_mem_cons.mpr ⟨hlt, fun a ha => ?_⟩)
    exact String.lt_trans hlt (List.rel_of_pairwise_cons hl' ha)
  rw [hnone, lookup_cons, if_pos rfl] at h
  cases h

theorem eq_of_lookup (hl : l.Pairwise fun a b => a.1 < b.1) (hl' : l'.Pairwise fun a b => a.1 < b.1)
    (h : ∀ x, l.lookup x = l'.lookup x) : l = l' := by
  induction l generalizing l' with
  | nil =>
    cases l' with
    | nil => rfl
    | cons q r' =>
      have hq := h q.1
      rw [lookup_cons, if_pos rfl] at hq
      cases hq
  | cons p r ih =>
    cases l' with
    | nil =>
      have hp := h p.1
      rw [lookup_cons, if_pos rfl] at hp
      cases hp
    | cons q r' =>
      have hname : p.1 = q.1 := by
        have hle : p.1 ≤ q.1 := String.not_lt.mp (not_lt_of_lookup hl (h q.1).symm)
        have hge : q.1 ≤ p.1 := String.not_lt.mp (not_lt_of_lookup hl' (h p.1))
        exact String.le_antisymm hle hge
      have hvalue := h p.1
      rw [lookup_cons, lookup_cons, if_pos rfl, if_pos hname, Option.some.injEq] at hvalue
      obtain rfl : p = q := Prod.ext hname hvalue
      obtain ⟨hp, hr⟩ := List.pairwise_cons.mp hl
      obtain ⟨hp', hr'⟩ := List.pairwise_cons.mp hl'
      rw [ih hr hr' fun x => ?_]
      by_cases hx : x = p.1
      · rw [hx, lookup_eq_none_of_lt hp, lookup_eq_none_of_lt hp']
      · have hxl := h x
        rwa [lookup_cons, lookup_cons, if_neg hx, if_neg hx] at hxl

/-- Environments that bind the same values to the same names are equal. -/
theorem ext_get? (h : ∀ x, e.get? x = e'.get? x) : e = e' := by
  obtain ⟨l, hl⟩ := e
  obtain ⟨l', hl'⟩ := e'
  obtain rfl : l = l' := eq_of_lookup hl hl' h
  rfl

end Imp.Env
