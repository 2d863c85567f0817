import Imp.Proofs.Semantics.Related
import Imp.Proofs.Semantics.Rules

/-! # Statements that commute

Two statements of which neither assigns a name that occurs in the other do not notice one another. Each
of them finds its own names as it would without the other, and leaves the names of the other alone. So it
makes no difference which of them runs first. -/

namespace Imp.Stmt

variable {limit : Option UInt64} {s t : Stmt} {e e' : Env}

theorem ends_seq_swap (hst : ∀ x ∈ s.assigned, x ∉ t.names) (hts : ∀ x ∈ t.assigned, x ∉ s.names)
    (h : (seq s t).Ends limit e (.done e')) : (seq t s).Ends limit e (.done e') := by
  obtain ⟨a, hs, ht⟩ | ⟨_, _, -, ho⟩ := ends_seq_iff.mp h
  · -- `t` finds its names as `s` found them, and so runs first as it ran behind `s`.
    have hta : ∀ x, x ∉ s.assigned → e.get? x = a.get? x := fun x hx => (hs.get?_eq hx).symm
    obtain ⟨o, htb, hb⟩ := ht.agree (fun x hx hxs => hst x hxs hx) hta
    cases hb with
    | @done _ b hb =>
      have heb : ∀ x, x ∉ t.assigned → b.get? x = e.get? x := fun x hx => htb.get?_eq hx
      obtain ⟨o, hsc, hc⟩ := hs.agree (fun x hx hxt => hts x hxt hx) heb
      cases hc with
      | @done _ c hc =>
        have hce : c = e' := by
          refine Env.ext_get? fun x => ?_
          by_cases hxt : x ∈ t.assigned
          · -- A name that `t` assigns is not among those that `s` does.
            have hxs : x ∉ s.assigned := fun hxs => hst x hxs (t.assigned_subset_names x hxt)
            exact (hsc.get?_eq hxs).trans (hb x hxs)
          · exact (hc x hxt).trans (ht.get?_eq hxt).symm
        rw [hce] at hsc
        exact ends_seq_iff.mpr (Or.inl ⟨b, htb, hsc⟩)
  · cases ho

/-- Statements of which neither assigns a name that occurs in the other may run in either order: where the
    one order reaches its end, so does the other, and it leaves the same environment. -/
theorem ends_seq_comm (hst : ∀ x ∈ s.assigned, x ∉ t.names) (hts : ∀ x ∈ t.assigned, x ∉ s.names) :
    (seq s t).Ends limit e (.done e') ↔ (seq t s).Ends limit e (.done e') :=
  ⟨ends_seq_swap hst hts, ends_seq_swap hts hst⟩

theorem ends_seq_comm_loop :
    let s := loop (.compare .lt (.var "x") (.const 2)) (.assign "x" (.binary .add (.var "x") (.var "z")))
    let t := «when» (.compare .gt (.var "z") (.const 0)) (.assign "y" (.var "z"))
    let e := Env.ofList [("z", 1)]
    let e' := Env.ofList [("x", 2), ("y", 1), ("z", 1)]
    (∀ x ∈ s.assigned, x ∉ t.names) ∧ (∀ x ∈ t.assigned, x ∉ s.names) ∧ (seq s t).Ends (some 2) e (.done e') ∧
      (seq t s).Ends (some 2) e (.done e') := by
  intro s t e e'
  have hst : ∀ x ∈ s.assigned, x ∉ t.names := by decide
  have hts : ∀ x ∈ t.assigned, x ∉ s.names := by decide
  have h : (seq s t).Ends (some 2) e (.done e') := ⟨3, by decide⟩
  exact ⟨hst, hts, h, (ends_seq_comm hst hts).mp h⟩

end Imp.Stmt
