import Imp.Json
import Imp.Numeral

/-! # Reading JSON

A text of JSON is cut into lexemes, with any blanks between them, and the lexemes are put together to a value. Both
are done in steps that remember what was begun: a string or a word, and the arrays and objects around it. What is
read is JSON, but not all of JSON is read: a number has no point and no other exponent than a negative one, and an
escape by number stands for a character by itself and not for half of a pair. -/

namespace Imp.Json

/-! ### Lexemes -/

/-- What a text is made of besides blanks. -/
inductive Lexeme where
  | openArray
  | closeArray
  | openObject
  | closeObject
  | comma
  | colon
  | string (s : String)
  /-- A number or one of the names of JSON. -/
  | word (cs : List Char)
deriving DecidableEq, Repr

/-- The characters that end a word, and the lexeme that each of them is: none, if it is a blank. -/
def delimiters : List (Char × List Lexeme) :=
  [(' ', []), ('\n', []), ('\r', []), ('\t', []), ('[', [.openArray]), (']', [.closeArray]), ('\x7b', [.openObject]),
    ('\x7d', [.closeObject]), (',', [.comma]), (':', [.colon])]

/-- The lexemes that a character is, if it ends a word. -/
def delimiter? (c : Char) : Option (List Lexeme) := delimiters.lookup c

/-- The character that is meant by a letter or mark behind a backslash. -/
def unescape? : Char → Option Char
  | '"' => some '"'
  | '\\' => some '\\'
  | '/' => some '/'
  | 'n' => some '\n'
  | 'r' => some '\r'
  | 't' => some '\t'
  | 'b' => some (Char.ofNat 0x08)
  | 'f' => some (Char.ofNat 0x0C)
  | _ => none

/-- The value of a hexadecimal digit, in lower or in upper case. -/
def hexValue? (c : Char) : Option Nat :=
  if '0' ≤ c ∧ c ≤ '9' then some (c.toNat - '0'.toNat)
  else if 'a' ≤ c ∧ c ≤ 'f' then some (c.toNat - 'a'.toNat + 10)
  else if 'A' ≤ c ∧ c ≤ 'F' then some (c.toNat - 'A'.toNat + 10)
  else none

/-- What was begun and is not yet a lexeme. What has been read of it stands with its last character first. -/
inductive Begun where
  | nothing
  | word (cs : List Char)
  | string (cs : List Char)
  /-- A string, and a backslash in it. -/
  | escape (cs : List Char)
  /-- A string, and in it an escape by number. One digit and so many more are to come. -/
  | code (cs : List Char) (more value : Nat)
deriving DecidableEq, Repr

/-- Takes a character. It may complete lexemes. -/
def Begun.take? : Begun → Char → Option (List Lexeme × Begun)
  | nothing, c =>
    if c = '"' then some ([], string [])
    else
      match delimiter? c with
      | some ls => some (ls, nothing)
      | none => some ([], word [c])
  | word cs, c =>
    match delimiter? c with
    | some ls => some (.word cs.reverse :: ls, nothing)
    | none => some ([], word (c :: cs))
  | string cs, c =>
    if c = '"' then some ([.string (String.ofList cs.reverse)], nothing)
    else if c = '\\' then some ([], escape cs)
    else if c.toNat < 0x20 then none
    else some ([], string (c :: cs))
  | escape cs, c =>
    if c = 'u' then some ([], code cs 3 0)
    else (unescape? c).map fun d => ([], string (d :: cs))
  | code cs more value, c => do
    let n := 16 * value + (← hexValue? c)
    match more with
    | more + 1 => return ([], code cs more n)
    | 0 => if n.isValidChar then return ([], string (Char.ofNat n :: cs)) else none

/-- The lexemes of what is left of a text. -/
def lexemes? : Begun → List Char → Option (List Lexeme)
  | .nothing, [] => some []
  | .word cs, [] => some [.word cs.reverse]
  | _, [] => none
  | b, c :: cs =>
    match b.take? c with
    | some (ls, b) => (lexemes? b cs).map (ls ++ ·)
    | none => none

/-! ### Words -/

/-- A natural number, without leading zeros. -/
def natural? (cs : List Char) : Option Nat := (Numeral.digits? cs).filter fun n => n.repr.toList = cs

/-- An integer, with or without a minus sign. -/
def integer? : List Char → Option Int
  | '-' :: cs => (natural? cs).map fun n => -n
  | cs => (natural? cs).map fun n => n

/-- A number. The exponent tells the decimals. -/
def number? (cs : List Char) : Option Json :=
  match cs.dropWhile (· ≠ 'e') with
  | [] => (integer? cs).map int
  | 'e' :: '-' :: ds => do return number (← integer? (cs.takeWhile (· ≠ 'e'))) (← natural? ds)
  | _ => none

/-- The value that a word is. -/
def ofWord? (cs : List Char) : Option Json :=
  if cs = "null".toList then some null
  else if cs = "true".toList then some (bool true)
  else if cs = "false".toList then some (bool false)
  else number? cs

/-! ### Values -/

/-- An array or an object that is not yet closed. What it has so far stands with the last first. -/
inductive Frame where
  | array (items : List Json)
  /-- The name is that of the field whose value comes next. -/
  | object (fields : List (String × Json)) (name : String)

/-- What comes next, within the frames around it. -/
inductive Awaited where
  /-- A value, or the end of an array that has no items. -/
  | value (around : List Frame)
  /-- A field of an object with these fields so far, or the end of the object if it has none. -/
  | field (fields : List (String × Json)) (around : List Frame)
  /-- The colon behind the name of a field. -/
  | colon (fields : List (String × Json)) (name : String) (around : List Frame)
  /-- What stands behind a value. -/
  | next (j : Json) (around : List Frame)

/-- Takes a lexeme. -/
def Awaited.take? : Awaited → Lexeme → Option Awaited
  | value around, .string s => some (next (.string s) around)
  | value around, .word cs => (ofWord? cs).map (next · around)
  | value around, .openArray => some (value (.array [] :: around))
  | value around, .openObject => some (field [] around)
  | value (.array [] :: around), .closeArray => some (next (.array []) around)
  | field fields around, .string name => some (colon fields name around)
  | field [] around, .closeObject => some (next (.object []) around)
  | colon fields name around, .colon => some (value (.object fields name :: around))
  | next j (.array items :: around), .comma => some (value (.array (j :: items) :: around))
  | next j (.array items :: around), .closeArray => some (next (.array (j :: items).reverse) around)
  | next j (.object fields name :: around), .comma => some (field ((name, j) :: fields) around)
  | next j (.object fields name :: around), .closeObject => some (next (.object ((name, j) :: fields).reverse) around)
  | _, _ => none

/-- The value that the lexemes make. -/
def ofLexemes? (ls : List Lexeme) : Option Json :=
  match ls.foldlM Awaited.take? (.value []) with
  | some (.next j []) => some j
  | _ => none

/-- The value that a text writes. -/
def ofText? (text : String) : Option Json := lexemes? .nothing text.toList >>= ofLexemes?

end Imp.Json
