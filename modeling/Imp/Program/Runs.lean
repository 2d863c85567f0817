import Imp.Program
import Imp.Semantics.Exec
import Imp.Syntax.Text

/-! # Source texts as programs

A source text is read and then run, or it is read and written out again. The environment that it runs on
may be one that is kept: what earlier texts stored is there, and what this one stores remains, also if an
error stops it. -/

namespace Imp

/-- Nothing, if the run reached its end, or the error that stopped it. -/
def Outcome.verdict : Outcome → Except Error Unit
  | done _ => .ok ()
  | stopped f _ => .error (.fault f)

namespace Program

/-- A source text as it is written out again. -/
def format (source : String) : Except Error String := (ofSource source).map Stmt.text

/-- Reads a source text and runs it on an environment. The answer comes with the environment that is left,
    unless the run needs more fuel. -/
def exec (limit : Option UInt64) (fuel : Nat) (source : String) (e : Env) : Option (Except Error Unit × Env) :=
  match ofSource source with
  | .error err => some (.error err, e)
  | .ok s => (s.exec limit fuel e).map fun o => (o.verdict, o.env)

/-- Runs a source text by itself and without a limit. The environment at its end, or the error alone, unless
    the run needs more fuel. -/
def eval (fuel : Nat) (source : String) : Option (Except Error Env) :=
  (exec none fuel source .empty).map fun (verdict, e) => verdict.map fun _ => e

/-- Running the source text on the environment has this answer and leaves this environment. -/
def Answers (limit : Option UInt64) (source : String) (e : Env) (verdict : Except Error Unit) (e' : Env) : Prop :=
  ∃ fuel, exec limit fuel source e = some (verdict, e')

/-- The source text is a program, and its run from the environment has this outcome. -/
def Ends (limit : Option UInt64) (source : String) (e : Env) (o : Outcome) : Prop :=
  ∃ s, ofSource source = .ok s ∧ s.Ends limit e o

/-- The source text is a program, and its run from the environment goes on for ever. -/
def Diverges (limit : Option UInt64) (source : String) (e : Env) : Prop :=
  ∃ s, ofSource source = .ok s ∧ s.Diverges limit e

end Program

end Imp
