import Imp.Proofs.Env.Lookup
import Imp.Proofs.Semantics.Conditions
import Imp.Proofs.Semantics.Limits

/-! # Invariants of loops

What holds in front of a loop, and what every iteration keeps, holds whenever the condition is evaluated. A loop
has one way to reach its end: the condition is evaluated and does not hold. If the condition or the body is at
fault, or the limit is reached, the loop is stopped, so none of these ends is a success. -/

namespace Imp.Stmt

variable {limit : Option UInt64} {c : Cond} {s : Stmt} {e e' : Env} {I : Env → Prop}

/-- Iterations that keep an invariant lead to an end only where it holds and the condition does not. -/
theorem LoopEnds.invariant (hI : ∀ a a', I a → c.eval a = .ok true → s.Ends limit a (.done a') → I a') {k : Nat}
    (he : I e) (h : LoopEnds limit c s k e (.done e')) : I e' ∧ c.eval e' = .ok false := by
  generalize ho : Outcome.done e' = o at h
  induction h with
  | exit hc =>
    cases ho
    exact ⟨he, hc⟩
  | round hc _ hs _ ih => exact ih (hI _ _ he hc hs) ho
  | fault _ | exhausted _ _ | stopped _ _ _ => cases ho

/-- A loop whose condition holds again after as many iterations as it may begin is stopped there. -/
theorem ends_loop_of_exhausted {N : UInt64} {k n : Nat} {a : Env} (hk : N.toNat ≤ k) (hc : c.eval a = .ok true)
    (h : (Machine.load (loop c s) e).after (some N) n = .running [.again c s k] a) :
    (loop c s).Ends (some N) e (.stopped (.tooManyIterations N) a) := by
  refine Machine.endsIn_load_iff.mp ⟨n + 1, ?_⟩
  rw [← Machine.step_after, h, Machine.step_again, hc]
  exact if_pos hk

/-- If the body keeps an invariant where the condition holds, then a loop that starts with the invariant and reaches
    its end does so with the invariant, and its condition does not hold there. So a loop that reaches its limit while
    its condition still holds does not end in success: the limit is reported. -/
theorem ends_loop_of_invariant (he : I e)
    (hI : ∀ a a', I a → c.eval a = .ok true → s.Ends limit a (.done a') → I a') :
    (∀ e', (loop c s).Ends limit e (.done e') → I e' ∧ c.eval e' = .ok false) ∧
    ∀ N k n a, limit = some N → N.toNat ≤ k → c.eval a = .ok true →
      (Machine.load (loop c s) e).after limit n = .running [.again c s k] a →
      (loop c s).Ends limit e (.stopped (.tooManyIterations N) a) := by
  refine ⟨fun e' h => (ends_loop_iff.mp h).invariant hI he, ?_⟩
  rintro N k n a rfl hk hc h
  exact ends_loop_of_exhausted hk hc h

/-- Counting up to three never goes beyond it, and so ends at it. -/
theorem ends_loop_of_invariant_counting :
    let c := Cond.compare .lt (.var "x") (.const 3)
    let s := assign "x" (.binary .add (.var "x") (.const 1))
    let I := fun a : Env => (a.get "x").toInt ≤ 3
    I .empty ∧ (∀ a a', I a → c.eval a = .ok true → s.Ends (some 3) a (.done a') → I a') ∧
      (∀ e', (loop c s).Ends (some 3) .empty (.done e') → (e'.get "x").toInt = 3) ∧
      (loop c s).Ends (some 3) .empty (.done (.ofList [("x", 3)])) := by
  intro c s I
  have he : I .empty := by decide
  have hI : ∀ a a', I a → c.eval a = .ok true → s.Ends (some 3) a (.done a') → I a' := by
    intro a a' _ hc hs
    have hlt : (a.get "x").toInt < 3 := (Cond.holds_of_eval hc).mp rfl
    obtain ⟨n, hn, ho⟩ | ⟨f, -, ho⟩ := ends_assign_iff.mp hs
    · cases ho
      have hsum : (a.get "x").toInt + 1 = n.toInt := (Expr.exact_of_eval hn).1
      change ((a.insert "x" n).get "x").toInt ≤ 3
      rw [Env.get_insert, if_pos rfl]
      omega
    · cases ho
  refine ⟨he, hI, fun e' h => ?_, ⟨4, by decide⟩⟩
  obtain ⟨hle, hc⟩ := (ends_loop_of_invariant he hI).1 e' h
  have hge : ¬ (e'.get "x").toInt < 3 := fun hlt => Bool.false_ne_true ((Cond.holds_of_eval hc).mpr hlt)
  change (e'.get "x").toInt ≤ 3 at hle
  omega

end Imp.Stmt
