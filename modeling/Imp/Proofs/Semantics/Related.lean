import Imp.Proofs.Env.Lookup
import Imp.Semantics.Exec
import Imp.Syntax.Variables

/-! # Runs that go alike

A run reads the names that occur in its statement and stores under those that it assigns; it learns of its
environment in no other way. So if a relation between environments lets the one be read like the other,
and storing on both sides keeps it, then runs from related environments take the same course, fuel by fuel,
and end in related environments. The right-hand run may have other names for its variables.

That a run keeps what storing keeps, and that it depends only on the names that occur, are cases of this. -/

namespace Imp

/-- Both runs reached their end, or the same fault stopped both, and what they leave is related. -/
inductive Outcome.Related (R : Env → Env → Prop) : Outcome → Outcome → Prop where
  | done {e e' : Env} : R e e' → Related R (.done e) (.done e')
  | stopped {f : Fault} {e e' : Env} : R e e' → Related R (.stopped f e) (.stopped f e')

theorem Outcome.Related.env {R : Env → Env → Prop} {o o' : Outcome} (h : Related R o o') : R o.env o'.env := by
  cases h with
  | done h => exact h
  | stopped h => exact h

/-! ### Values -/

section

variable {f : String → String} {e e' : Env}

theorem Expr.eval_rename {v : Expr} (h : ∀ x ∈ v.names, e'.get (f x) = e.get x) : (v.rename f).eval e' = v.eval e := by
  induction v with
  | const n => rfl
  | var x => exact congrArg Except.ok (h x (List.mem_singleton_self x))
  | binary op l r ihl ihr =>
    obtain ⟨hl, hr⟩ := List.forall_mem_append.mp h
    simp only [rename, eval, ihl hl, ihr hr]

theorem Cond.eval_rename {c : Cond} (h : ∀ x ∈ c.names, e'.get (f x) = e.get x) : (c.rename f).eval e' = c.eval e := by
  induction c with
  | compare op l r =>
    obtain ⟨hl, hr⟩ := List.forall_mem_append.mp h
    simp only [rename, eval, Expr.eval_rename hl, Expr.eval_rename hr]
  | and l r ihl ihr | or l r ihl ihr =>
    obtain ⟨hl, hr⟩ := List.forall_mem_append.mp h
    simp only [rename, eval, ihl hl, ihr hr]
  | not c ih => simp only [rename, eval, ih h]

end

/-! ### Statements -/

namespace Stmt

variable {R : Env → Env → Prop} {limit : Option UInt64} {f : String → String} {s : Stmt} {e e' : Env}

theorem andThen_related {o o' : Option Outcome} {next next' : Env → Option Outcome}
    (h : Option.Rel (Outcome.Related R) o o')
    (hn : ∀ e e', R e e' → Option.Rel (Outcome.Related R) (next e) (next' e')) :
    Option.Rel (Outcome.Related R) (andThen o next) (andThen o' next') := by
  cases h with
  | none => exact .none
  | some h =>
    cases h with
    | done h => exact hn _ _ h
    | stopped h => exact .some (.stopped h)

theorem iterate_related {test test' : Env → Except Fault Bool} {body body' : Env → Option Outcome}
    (ht : ∀ e e', R e e' → test' e' = test e)
    (hb : ∀ e e', R e e' → Option.Rel (Outcome.Related R) (body e) (body' e')) (fuel begun : Nat) (h : R e e') :
    Option.Rel (Outcome.Related R) (iterate limit test body fuel begun e)
      (iterate limit test' body' fuel begun e') := by
  induction fuel generalizing begun e e' with
  | zero => exact .none
  | succ fuel ih =>
    rw [iterate, iterate, ht e e' h]
    cases test e with
    | error f => exact .some (.stopped h)
    | ok b =>
      cases b with
      | false => exact .some (.done h)
      | true =>
        cases exhausted limit begun with
        | some n => exact .some (.stopped h)
        | none =>
          -- What follows an iteration is what `andThen` makes of it.
          exact andThen_related (hb e e' h) fun _ _ h => ih (begun + 1) h

/-- A statement and the same statement with other names go alike from related environments. -/
theorem exec_related (hread : ∀ x ∈ s.names, ∀ e e', R e e' → e'.get (f x) = e.get x)
    (hwrite : ∀ x ∈ s.assigned, ∀ e e' n, R e e' → R (e.insert x n) (e'.insert (f x) n)) (fuel : Nat) (h : R e e') :
    Option.Rel (Outcome.Related R) (s.exec limit fuel e) ((s.rename f).exec limit fuel e') := by
  induction s generalizing e e' with
  | assign x v =>
    have hv : (v.rename f).eval e' = v.eval e := Expr.eval_rename fun y hy => hread y (List.mem_cons_of_mem x hy) e e' h
    rw [rename, exec, exec, hv]
    cases v.eval e with
    | error f => exact .some (.stopped h)
    | ok n => exact .some (.done (hwrite x (List.mem_singleton_self x) e e' n h))
  | seq s t ihs iht =>
    obtain ⟨hrs, hrt⟩ := List.forall_mem_append.mp hread
    obtain ⟨hws, hwt⟩ := List.forall_mem_append.mp hwrite
    exact andThen_related (ihs hrs hws h) fun _ _ h => iht hrt hwt h
  | «when» c s ih =>
    obtain ⟨hrc, hrs⟩ := List.forall_mem_append.mp hread
    rw [rename, exec, exec, Cond.eval_rename fun x hx => hrc x hx e e' h]
    cases c.eval e with
    | error f => exact .some (.stopped h)
    | ok b =>
      cases b with
      | true => exact ih hrs hwrite h
      | false => exact .some (.done h)
  | branch c s t ihs iht =>
    obtain ⟨hrcs, hrt⟩ := List.forall_mem_append.mp hread
    obtain ⟨hrc, hrs⟩ := List.forall_mem_append.mp hrcs
    obtain ⟨hws, hwt⟩ := List.forall_mem_append.mp hwrite
    rw [rename, exec, exec, Cond.eval_rename fun x hx => hrc x hx e e' h]
    cases c.eval e with
    | error f => exact .some (.stopped h)
    | ok b =>
      cases b with
      | true => exact ihs hrs hws h
      | false => exact iht hrt hwt h
  | loop c s ih =>
    obtain ⟨hrc, hrs⟩ := List.forall_mem_append.mp hread
    exact iterate_related (fun e e' h => Cond.eval_rename fun x hx => hrc x hx e e' h) (fun e e' h => ih hrs hwrite h)
      fuel 0 h

theorem Ends.related {o : Outcome} (hread : ∀ x ∈ s.names, ∀ e e', R e e' → e'.get (f x) = e.get x)
    (hwrite : ∀ x ∈ s.assigned, ∀ e e' n, R e e' → R (e.insert x n) (e'.insert (f x) n)) (h : R e e')
    (ho : s.Ends limit e o) : ∃ o', (s.rename f).Ends limit e' o' ∧ Outcome.Related R o o' := by
  obtain ⟨fuel, hrun⟩ := ho
  have hrel : Option.Rel (Outcome.Related R) (s.exec limit fuel e) ((s.rename f).exec limit fuel e') :=
    exec_related hread hwrite fuel h
  rw [hrun] at hrel
  generalize hrun' : (s.rename f).exec limit fuel e' = r at hrel
  cases hrel with
  | some hrel => exact ⟨_, ⟨fuel, hrun'⟩, hrel⟩

/-! ### One run, and two runs of one statement -/

/-- A statement goes alike from related environments, where no names are changed. -/
theorem Ends.alike {o : Outcome} (hread : ∀ x ∈ s.names, ∀ e e', R e e' → e'.get x = e.get x)
    (hwrite : ∀ x ∈ s.assigned, ∀ e e' n, R e e' → R (e.insert x n) (e'.insert x n)) (h : R e e')
    (ho : s.Ends limit e o) : ∃ o', s.Ends limit e' o' ∧ Outcome.Related R o o' := by
  have hrel := ho.related (f := id) hread hwrite h
  rwa [rename_id] at hrel

/-- What storing under the names that a statement assigns keeps, its run keeps. -/
theorem Ends.keeps {I : Env → Prop} {o : Outcome} (hI : ∀ x ∈ s.assigned, ∀ e n, I e → I (e.insert x n)) (he : I e)
    (h : s.Ends limit e o) : I o.env := by
  have hwrite : ∀ x ∈ s.assigned, ∀ e e' n, (e = e' ∧ I e) → e.insert x n = e'.insert x n ∧ I (e.insert x n) := by
    rintro x hx e _ n ⟨rfl, he⟩
    exact ⟨rfl, hI x hx e n he⟩
  obtain ⟨o', -, hrel⟩ := h.alike (fun x _ e e' heq => by rw [heq.1]) hwrite ⟨rfl, he⟩
  exact hrel.env.2

/-- A name that a statement does not assign stays as it is, bound or not. -/
theorem Ends.get?_eq {o : Outcome} {x : String} (hx : x ∉ s.assigned) (h : s.Ends limit e o) :
    o.env.get? x = e.get? x := by
  refine h.keeps (I := fun e' => e'.get? x = e.get? x) (fun y hy e' n he' => ?_) rfl
  have hne : x ≠ y := fun heq => hx (heq ▸ hy)
  rw [Env.get?_insert, if_neg hne, he']

/-- From environments that bind the same to all the names that occur, and to any others, a statement runs
    in the same way, and leaves environments that still bind the same to these. -/
theorem Ends.agree {P : String → Prop} {o : Outcome} (hP : ∀ x ∈ s.names, P x)
    (he : ∀ x, P x → e'.get? x = e.get? x) (h : s.Ends limit e o) :
    ∃ o', s.Ends limit e' o' ∧ Outcome.Related (fun a b => ∀ x, P x → b.get? x = a.get? x) o o' := by
  have hread : ∀ x ∈ s.names, ∀ a b : Env, (∀ x, P x → b.get? x = a.get? x) → b.get x = a.get x :=
    fun x hx a b hab => by rw [Env.get, Env.get, hab x (hP x hx)]
  have hwrite : ∀ x ∈ s.assigned, ∀ (a b : Env) (n : Int64), (∀ x, P x → b.get? x = a.get? x) →
      ∀ y, P y → (b.insert x n).get? y = (a.insert x n).get? y := fun x _ a b n hab y hy => by
    rw [Env.get?_insert, Env.get?_insert, hab y hy]
  exact h.alike hread hwrite he

end Stmt

end Imp
