import Imp.Parser.Basic

/-! # Running a parser

The run of a parser is read off its description. Two things may go on without end, a definition that
is called and a parser that is repeated, and both draw on the fuel: it bounds how deep calls may nest
and how often one loop may go round. -/

namespace Imp

namespace Parser

variable {ν : Type} {ty : ν → Type} {α : Type}

/-- Takes the token at a position, if it is accepted. -/
def take (ts : Array Token) (accepts : Token → Bool) (pos : Nat) : Answer String :=
  match ts[pos]? with
  | some t => if accepts t then .success t.text (pos + 1) else .failure
  | none => .failure

/-- Runs a step again and again until it fails. -/
def repeatRun (step : Nat → Answer α) : Nat → Nat → Answer (List α)
  | 0, _ => .unfinished
  | fuel + 1, pos =>
    match step pos with
    | .unfinished => .unfinished
    | .failure => .success [] pos
    | .success v next => (repeatRun step fuel next).map (v :: ·)

/-- Goes on with separators and operands behind what was joined so far. A separator with no operand
    behind it is left where it is. -/
def chainRun (operand : Nat → Answer α) (separator : Nat → Answer (α → α → α)) :
    Nat → α → Nat → Answer α
  | 0, _, _ => .unfinished
  | fuel + 1, left, pos =>
    match separator pos with
    | .unfinished => .unfinished
    | .failure => .success left pos
    | .success join mid =>
      match operand mid with
      | .unfinished => .unfinished
      | .failure => .success left pos
      | .success right next => chainRun operand separator fuel (join left right) next

/-- The run of a parser at a position, where `called` runs the definitions and `fuel` bounds the
    loops. -/
def runWith (ts : Array Token) (called : (n : ν) → Nat → Answer (ty n)) (fuel : Nat) {α : Type} :
    Parser ty α → Nat → Answer α
  | token text kind, pos => take ts (fun t => t.text = text ∧ t.kind = kind) pos
  | ofKind kind, pos => take ts (fun t => t.kind = kind) pos
  | fail, _ => .failure
  | seq p q, pos =>
    (p.runWith ts called fuel pos).bind fun a mid => (q.runWith ts called fuel mid).map (a, ·)
  | alt p q, pos =>
    (p.runWith ts called fuel pos).orElse fun _ => q.runWith ts called fuel pos
  | opt p, pos => (p.runWith ts called fuel pos).optional pos
  | rep p, pos => repeatRun (p.runWith ts called fuel) fuel pos
  | map f p, pos => (p.runWith ts called fuel pos).map f
  | filterMap f p, pos => (p.runWith ts called fuel pos).filterMap f
  | chainLeft p s, pos =>
    (p.runWith ts called fuel pos).bind
      (chainRun (p.runWith ts called fuel) (s.runWith ts called fuel) fuel)
  | phrase p, pos => (p.runWith ts called fuel pos).endingAt ts.size
  | call n, pos => called n pos

/-- The run of a definition, with calls nested at most `fuel` deep. -/
def runCall (defs : Family ty) (ts : Array Token) : Nat → (n : ν) → Nat → Answer (ty n)
  | 0, _, _ => .unfinished
  | fuel + 1, n, pos => (defs n).runWith ts (runCall defs ts fuel) fuel pos

/-- The run of a parser at a position. -/
def run (defs : Family ty) (ts : Array Token) (fuel : Nat) (p : Parser ty α) (pos : Nat) : Answer α :=
  p.runWith ts (runCall defs ts fuel) fuel pos

/-- Fuel that is enough for every run of a well-formed family with this many definitions, on this
    many tokens: no call stands within a call of the same definition at the same position, and no loop
    goes round twice at one position. -/
def ample (definitions tokens : Nat) : Nat := (definitions + 1) * (tokens + 2)

end Parser

end Imp
