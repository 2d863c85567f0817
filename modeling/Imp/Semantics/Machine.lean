import Imp.Semantics.Eval
import Imp.Semantics.Outcome

/-! # Running in small steps

A machine holds a stack of tasks and an environment. A task starts a statement, or goes on with a
loop and knows how many iterations that execution of the loop has begun. A step takes the task on
top: it evaluates at most one expression or condition, and puts the tasks that follow back on the
stack. A machine with nothing left to do has ended, and so has one that a fault stopped; a run that
goes on for ever is a machine that never ends.

The tasks of a machine show every loop that is being executed, so the most iterations that any single
execution of a loop begins are the most that ever stand on the stack. -/

namespace Imp

/-- Something that is left to do. -/
inductive Task where
  /-- Runs a statement. -/
  | start (s : Stmt)
  /-- Goes on with a loop that has begun so many iterations. -/
  | again (c : Cond) (body : Stmt) (begun : Nat)
deriving DecidableEq, Repr

/-- The number of iterations that the task's loop has begun. -/
def Task.begun : Task → Nat
  | start _ => 0
  | again _ _ n => n

/-- A run that is under way, with the next task on top, or one that has ended. -/
inductive Machine where
  | running (todo : List Task) (env : Env)
  | ended (outcome : Outcome)
deriving DecidableEq

namespace Machine

/-- The start of a run. -/
def load (s : Stmt) (e : Env) : Machine := running [.start s] e

/-- Goes on with a value. A fault ends the run. -/
def evaluated {α : Type} (e : Env) (next : α → Machine) : Except Fault α → Machine
  | .error f => ended (.stopped f e)
  | .ok v => next v

/-- Starts a statement, with more to do behind it. -/
def start (todo : List Task) (e : Env) : Stmt → Machine
  | .assign x v => evaluated e (fun n => running todo (e.insert x n)) (v.eval e)
  | .seq s t => running (.start s :: .start t :: todo) e
  | .when c s => evaluated e (fun b => running (if b then .start s :: todo else todo) e) (c.eval e)
  | .branch c s t => evaluated e (fun b => running (.start (if b then s else t) :: todo) e) (c.eval e)
  | .loop c s => running (.again c s 0 :: todo) e

/-- Begins one more iteration, unless the limit has been reached. -/
def begin (limit : Option UInt64) (todo : List Task) (e : Env) (c : Cond) (s : Stmt) (begun : Nat) : Machine :=
  match limit with
  | some n =>
    if n.toNat ≤ begun then ended (.stopped (.tooManyIterations n) e)
    else running (.start s :: .again c s (begun + 1) :: todo) e
  | none => running (.start s :: .again c s (begun + 1) :: todo) e

/-- One step. A machine that has ended stays as it is. -/
def step (limit : Option UInt64) : Machine → Machine
  | running [] e => ended (.done e)
  | running (.start s :: todo) e => start todo e s
  | running (.again c s begun :: todo) e =>
    evaluated e (fun b => if b then begin limit todo e c s begun else running todo e) (c.eval e)
  | ended o => ended o

/-- The machine after so many steps. -/
def after (limit : Option UInt64) (m : Machine) : Nat → Machine
  | 0 => m
  | n + 1 => (m.step limit).after limit n

/-- The machine ends with this outcome. -/
def EndsIn (limit : Option UInt64) (m : Machine) (o : Outcome) : Prop :=
  ∃ n, m.after limit n = ended o

/-- The machine goes on for ever. -/
def NeverEnds (limit : Option UInt64) (m : Machine) : Prop :=
  ∀ n o, m.after limit n ≠ ended o

/-- The tasks on the stack. -/
def todo : Machine → List Task
  | running todo _ => todo
  | ended _ => []

/-- The most iterations that any single execution of a loop begins. -/
def IsPeak (limit : Option UInt64) (m : Machine) (k : Nat) : Prop :=
  (∀ n, ∀ t ∈ (m.after limit n).todo, t.begun ≤ k) ∧
    (k = 0 ∨ ∃ n, ∃ t ∈ (m.after limit n).todo, t.begun = k)

/-! ### Steps in a row -/

@[simp] theorem after_zero (limit : Option UInt64) (m : Machine) : m.after limit 0 = m := rfl

theorem after_succ (limit : Option UInt64) (m : Machine) (n : Nat) :
    m.after limit (n + 1) = (m.step limit).after limit n := rfl

theorem after_add (limit : Option UInt64) (m : Machine) (n k : Nat) :
    m.after limit (n + k) = (m.after limit n).after limit k := by
  induction n generalizing m with
  | zero => simp
  | succ n ih => rw [Nat.succ_add, after_succ, after_succ, ih]

@[simp] theorem after_ended (limit : Option UInt64) (o : Outcome) (n : Nat) :
    (ended o).after limit n = ended o := by
  induction n with
  | zero => rfl
  | succ n ih => exact ih

theorem EndsIn.unique {limit : Option UInt64} {m : Machine} {o o' : Outcome} (h : m.EndsIn limit o)
    (h' : m.EndsIn limit o') : o = o' := by
  obtain ⟨n, hn⟩ := h
  obtain ⟨k, hk⟩ := h'
  have hnk : m.after limit (n + k) = ended o := by rw [after_add, hn, after_ended]
  have hkn : m.after limit (k + n) = ended o' := by rw [after_add, hk, after_ended]
  rw [Nat.add_comm, hnk] at hkn
  exact ended.inj hkn

end Machine

end Imp
