import Imp.Fault
import Imp.Token

/-! # Errors

Everything that can keep a program from reaching its end: a character that starts no token, tokens
that are no program, or a fault while the program runs. -/

namespace Imp

/-- Why a source text has no result. -/
inductive Error where
  /-- No token starts with this character. -/
  | illegalCharacter (c : Char) (place : Place)
  /-- A program ends, but more tokens follow at this place. -/
  | syntaxError (place : Place) (reason : String)
  /-- The tokens do not begin with a program. -/
  | parseError (reason : String)
  /-- There are no tokens. -/
  | unexpectedEnd
  /-- The program was running. -/
  | fault (f : Fault)
deriving DecidableEq, Repr

namespace Error

/-- The tokens do not begin with a program. -/
def noStatement (found : Token) : Error :=
  parseError ("expected a statement, found '" ++ found.text ++ "' at " ++ found.place.text)

/-- A program ends in front of this token. -/
def leftover (found : Token) : Error :=
  syntaxError found.place ("unexpected token '" ++ found.text ++ "'")

/-- The text of an error. -/
def message : Error → String
  | illegalCharacter c p => "Illegal character '" ++ c.toString ++ "' at " ++ p.text
  | syntaxError p reason => "Syntax error at " ++ p.text ++ ": " ++ reason
  | parseError reason => "Parse error: " ++ reason
  | unexpectedEnd => "Unexpected end of file"
  | fault f => f.message

/-- Whether an error was found before anything ran. -/
def isSyntax : Error → Bool
  | fault _ => false
  | _ => true

end Error

end Imp
