import Imp.Log
import Imp.Program
import Imp.Semantics.Exec

/-! # What reading and running tell

Reading a source text tells how many tokens it has, and whether they make a program or which one does not fit. The
run of a statement tells each value before it is stored, and of each loop that is left how often it went round. A
run takes the events before it along, the last of them first, and its outcome is that of the run which tells
nothing. -/

namespace Imp

/-! ### Reading -/

/-- The program that a source text writes, and what is told while it is read. -/
def Program.read (source : String) : Except Error Stmt × List Event :=
  match tokenize source with
  | .error err => (.error err, [])
  | .ok ts =>
    match ofTokens ts with
    | .ok s => (.ok s, [.scanned ts.size, .parsed ts.size])
    | .error err => (.error err, .scanned ts.size :: if ts.isEmpty then [] else [.parseStopped (reach ts)])

namespace Stmt

/-! ### Running -/

/-- Goes on with a run that is done. A run that was stopped, or is unfinished, stays as it is. -/
def traceThen (r : Option (Outcome × List Event)) (next : Env → List Event → Option (Outcome × List Event)) :
    Option (Outcome × List Event) :=
  match r with
  | some (.done e, log) => next e log
  | r => r

/-- Goes on with a loop that has begun so many iterations. -/
def traceLoop (limit : Option UInt64) (test : Env → Except Fault Bool)
    (body : Env → List Event → Option (Outcome × List Event)) :
    Nat → Nat → Env → List Event → Option (Outcome × List Event)
  | 0, _, _, _ => none
  | fuel + 1, begun, e, log =>
    match test e with
    | .error f => some (.stopped f e, log)
    | .ok false => some (.done e, .loopEnded begun :: log)
    | .ok true =>
      match exhausted limit begun with
      | some n => some (.stopped (.tooManyIterations n) e, log)
      | none =>
        match body e log with
        | some (.done e, log) => traceLoop limit test body fuel (begun + 1) e log
        | r => r

/-- The run of a statement from an environment, and all that was told up to its end. -/
def trace (limit : Option UInt64) (fuel : Nat) : Stmt → Env → List Event → Option (Outcome × List Event)
  | assign x v, e, log =>
    match v.eval e with
    | .error f => some (.stopped f e, log)
    | .ok n => some (.done (e.insert x n), .assigned x n :: log)
  | seq s t, e, log => traceThen (s.trace limit fuel e log) (t.trace limit fuel)
  | .when c s, e, log =>
    match c.eval e with
    | .error f => some (.stopped f e, log)
    | .ok true => s.trace limit fuel e log
    | .ok false => some (.done e, log)
  | branch c s t, e, log =>
    match c.eval e with
    | .error f => some (.stopped f e, log)
    | .ok true => s.trace limit fuel e log
    | .ok false => t.trace limit fuel e log
  | loop c s, e, log => traceLoop limit (fun e => c.eval e) (s.trace limit fuel) fuel 0 e log

end Stmt

end Imp
