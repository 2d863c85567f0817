import Imp.Syntax.Grammar
import Imp.Token.Cursor

/-! # Programs

A program is a list of statements that takes all tokens. Where the tokens are none, the longest list
of statements at their start shows which token does not fit: the one behind it. -/

namespace Imp.Program

/-- The number of tokens that the longest list of statements at the start takes. -/
def reach (ts : Array Token) : Nat := (Grammar.run Grammar.block ts 0).toOption.elim 0 (·.2)

/-- What is wrong with tokens that are no program. -/
def diagnose (ts : Array Token) : Error :=
  let stop := (Grammar.run Grammar.block ts 0).toOption.elim 0 (·.2)
  match ts[stop]? with
  | some t => if stop = 0 then .noStatement t else .leftover t
  | none => .parseError "incomplete program"

/-- The program that the tokens make. -/
def ofTokens (ts : Array Token) : Except Error Stmt :=
  if ts.isEmpty then .error .unexpectedEnd
  else
    match Grammar.run Grammar.program ts 0 with
    | .success s _ => .ok s
    | _ => .error (diagnose ts)

/-- The program that a source text writes. -/
def ofSource (source : String) : Except Error Stmt := tokenize source >>= ofTokens

end Imp.Program
