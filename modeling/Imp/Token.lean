/-! # Tokens

A token is a piece of source text with its lexical class and the place where it starts. Places count
lines and columns from 1, and columns in code points: a newline starts the next line, every other
character, a tab or a carriage return as well, takes one column. -/

namespace Imp

/-- A line and a column of a source text, both counted from 1. -/
structure Place where
  line : Nat
  column : Nat
deriving DecidableEq, Repr, Inhabited

namespace Place

/-- A place as it is named in messages. -/
def text (p : Place) : String :=
  "line " ++ toString p.line ++ ", column " ++ toString p.column

/-- Where a source text begins. -/
def origin : Place := ⟨1, 1⟩

/-- The place behind the character `c` that stands at `p`. -/
def next (p : Place) (c : Char) : Place :=
  if c = '\n' then ⟨p.line + 1, 1⟩ else ⟨p.line, p.column + 1⟩

/-- The place behind a text that starts at `p`. -/
def after (p : Place) (cs : List Char) : Place := cs.foldl next p

@[simp] theorem after_nil (p : Place) : p.after [] = p := rfl

@[simp] theorem after_cons (p : Place) (c : Char) (cs : List Char) :
    p.after (c :: cs) = (p.next c).after cs := rfl

@[simp] theorem after_append (p : Place) (cs ds : List Char) :
    p.after (cs ++ ds) = (p.after cs).after ds :=
  List.foldl_append

end Place

/-- The lexical class of a token. -/
inductive Kind where
  /-- Punctuation and reserved words, known by their text. -/
  | reserved
  /-- A run of decimal digits. -/
  | numeral
  /-- A letter with the letters, digits and underscores that follow. -/
  | name
deriving DecidableEq, Repr, Inhabited

/-- The name of a lexical class as it is shown. -/
def Kind.label : Kind → String
  | .reserved => "RESERVED"
  | .numeral => "INT"
  | .name => "ID"

/-- A piece of source text, its lexical class and where it starts. -/
structure Token where
  text : String
  kind : Kind
  place : Place
deriving DecidableEq, Repr, Inhabited

/-- A token as it is shown: text and class, without the place. -/
def Token.display (t : Token) : String :=
  "(" ++ t.text ++ ", " ++ t.kind.label ++ ")"

/-- What a grammar may look at: the text and the class. -/
def Token.key (t : Token) : String × Kind := (t.text, t.kind)

end Imp
