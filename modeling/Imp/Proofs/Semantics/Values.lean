import Imp.Proofs.Integer.Exact
import Imp.Semantics.Spine

/-! # Values are exact

A value is the exact one, and the first operation at fault decides the fault: the operands of an operation are
evaluated first, and to their exact values, so the operator finds its operation at fault just where the exact
operands put it at fault. The walk along the spine carries out the operations in the same order. -/

namespace Imp

section

variable {ε α β : Type} {o : Except ε α} {next : α → Except ε β} {b : β} {f : ε}

theorem bind_eq_ok : o >>= next = .ok b ↔ ∃ a, o = .ok a ∧ next a = .ok b := by
  cases o with
  | ok a => exact ⟨fun h => ⟨a, rfl, h⟩, fun ⟨_, ha, h⟩ => Except.ok.inj ha ▸ h⟩
  | error f => exact iff_of_false nofun nofun

theorem bind_eq_error : o >>= next = .error f ↔ o = .error f ∨ ∃ a, o = .ok a ∧ next a = .error f := by
  cases o with
  | ok a => exact ⟨fun h => .inr ⟨a, rfl, h⟩, fun | .inr ⟨_, ha, h⟩ => Except.ok.inj ha ▸ h⟩
  | error f' =>
    rw [Except.error.injEq]
    exact ⟨fun h => .inl (Except.error.inj h), fun | .inl h => congrArg _ h⟩

end

namespace Expr

variable {env : Env} {a : Expr} {op : Operator} {l r : Expr} {n : Int64} {f : Fault}

/-! ### The walk along the spine -/

/-- A walk that has gone down carries on as if it had the value there: it applies the operators on the stack. -/
theorem foldlM_descend {step : Int64 → Operator × Expr → Except Fault Int64}
    (hstep : ∀ v op r, step v (op, r) = r.eval env >>= op.apply v) (spine : List (Operator × Expr)) :
    (a.descend env spine).2.foldlM step (a.descend env spine).1 = a.eval env >>= fun v => spine.foldlM step v := by
  induction a generalizing spine with
  | const n => rfl
  | var x => rfl
  | binary op l r ihl _ =>
    rw [descend, ihl, eval]
    simp only [List.foldlM_cons, hstep, bind_assoc]

theorem evalSpine_eq (env : Env) (a : Expr) : a.evalSpine env = a.eval env := by
  induction a using evalSpine.induct env with
  | case1 a ih =>
    -- The right operands on the stack are smaller, so their own walks evaluate them.
    rw [evalSpine, List.foldlM_subtype (g := fun v p => p.2.eval env >>= p.1.apply v) fun v p hp => ?_,
      List.unattach_attach, foldlM_descend fun v op r => rfl]
    · exact bind_pure (a.eval env)
    · exact congrArg (· >>= p.1.apply v) (ih p.1 p.2 hp)

/-! ### The first fault -/

theorem firstFault?_binary : (binary op l r).firstFault? env =
    (l.firstFault? env).or ((r.firstFault? env).or (op.fault? (l.exact env) (r.exact env))) := by
  simp [firstFault?, operations, List.findSome?_append]

theorem exact_of_eval (h : a.eval env = .ok n) : a.exact env = n.toInt ∧ a.firstFault? env = none := by
  induction a generalizing n with
  | const m =>
    cases h
    exact ⟨rfl, rfl⟩
  | var x =>
    cases h
    exact ⟨rfl, rfl⟩
  | binary op l r ihl ihr =>
    obtain ⟨a, hl, h⟩ := bind_eq_ok.mp h
    obtain ⟨b, hr, h⟩ := bind_eq_ok.mp h
    obtain ⟨hla, hlf⟩ := ihl hl
    obtain ⟨hrb, hrf⟩ := ihr hr
    have hres := Operator.apply_eq_ok_iff.mp h
    constructor
    · rw [exact, hla, hrb, hres, Option.getD_some]
    · rw [firstFault?_binary, hlf, hrf, hla, hrb, Operator.fault?_eq hres, if_pos (fitsWord_toInt n)]
      rfl

theorem firstFault?_of_eval (h : a.eval env = .error f) : a.firstFault? env = some f := by
  induction a with
  | const m => cases h
  | var x => cases h
  | binary op l r ihl ihr =>
    rw [firstFault?_binary]
    rcases bind_eq_error.mp h with hl | ⟨a, hl, h⟩
    · rw [ihl hl, Option.some_or]
    · obtain ⟨hla, hlf⟩ := exact_of_eval hl
      rw [hlf, Option.none_or]
      rcases bind_eq_error.mp h with hr | ⟨b, hr, h⟩
      · rw [ihr hr, Option.some_or]
      · obtain ⟨hrb, hrf⟩ := exact_of_eval hr
        rw [hrf, Option.none_or, hla, hrb, Operator.apply_eq_error_iff.mp h]

theorem eval_eq_error_iff : a.eval env = .error f ↔ a.firstFault? env = some f := by
  refine ⟨firstFault?_of_eval, fun h => ?_⟩
  cases ha : a.eval env with
  | ok n => cases h.symm.trans (exact_of_eval ha).2
  | error f' => rw [Option.some.inj ((firstFault?_of_eval ha).symm.trans h)]

theorem eval_eq_ok_iff : a.eval env = .ok n ↔ a.firstFault? env = none ∧ n.toInt = a.exact env := by
  refine ⟨fun h => ⟨(exact_of_eval h).2, (exact_of_eval h).1.symm⟩, fun ⟨hf, hn⟩ => ?_⟩
  cases ha : a.eval env with
  | ok m => rw [Int64.toInt_inj.mp (hn.trans (exact_of_eval ha).1)]
  | error f' => cases hf.symm.trans (firstFault?_of_eval ha)

/-! ### Expressions without a fault -/

theorem firstFault?_eq_none_iff : a.firstFault? env = none ↔ ∀ op l r, (op, l, r) ∈ a.operations →
    (op = .div → r.exact env ≠ 0) ∧ FitsWord ((binary op l r).exact env) := by
  simp only [firstFault?, List.findSome?_eq_none_iff, Prod.forall, Operator.fault?_eq_none_iff, exact]

/-- The value of an expression is its exact one, and there is one just where every divisor is other than zero and
    every operation has a result that fits. Otherwise its fault is that of the first operation at fault, in the order
    in which operations are carried out. The walk along the spine and the recursion over both operands agree. -/
theorem evalSpine_exact (env : Env) (a : Expr) :
    (∀ n, a.evalSpine env = .ok n ↔
      (∀ op l r, (op, l, r) ∈ a.operations → (op = .div → r.exact env ≠ 0) ∧ FitsWord ((binary op l r).exact env)) ∧
        n.toInt = a.exact env) ∧
    (∀ f, a.evalSpine env = .error f ↔ a.firstFault? env = some f) ∧
    a.evalSpine env = a.eval env := by
  refine ⟨fun n => ?_, fun f => ?_, evalSpine_eq env a⟩
  · rw [evalSpine_eq, eval_eq_ok_iff, firstFault?_eq_none_iff]
  · rw [evalSpine_eq, eval_eq_error_iff]

example : (binary .div (binary .add (const Int64.maxValue) (const 1)) (const 0)).firstFault? Env.empty =
    some (.overflow .add) := by decide

end Expr

end Imp
