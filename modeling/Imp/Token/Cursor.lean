import Imp.Error
import Imp.Token.Lexicon

/-! # Reading tokens

A cursor stands in a source text: it holds the text that is left and the place where that text
starts. Reading goes on from lexeme to lexeme, collects the tokens and ends at the end of the text or
at the first character that no rule accepts. The cursor that is left can be read from again: at the
end it gives no further tokens, and at an illegal character the same error. -/

namespace Imp

/-- A place in a source text and the text from there on. -/
structure Cursor where
  rest : List Char
  place : Place
deriving DecidableEq, Repr

namespace Cursor

/-- The cursor at the start of a source text. -/
def ofString (source : String) : Cursor := ⟨source.toList, .origin⟩

/-- The cursor `n` characters further on. -/
def advance (c : Cursor) (n : Nat) : Cursor := ⟨c.rest.drop n, c.place.after (c.rest.take n)⟩

/-- The token that a rule makes of the next `n` characters, unless it skips them. -/
def token? (c : Cursor) (r : Lexicon.Rule) (n : Nat) : Option Token :=
  r.kind.map fun k => ⟨String.ofList (c.rest.take n), k, c.place⟩

/-- The next lexeme: its token, unless it is skipped, and the cursor behind it. -/
def step? (c : Cursor) : Option (Option Token × Cursor) :=
  (Lexicon.firstMatch? c.rest).map fun (r, n) => (c.token? r n, c.advance n)

theorem step?_length_lt {c d : Cursor} {t : Option Token} (h : c.step? = some (t, d)) :
    d.rest.length < c.rest.length := by
  obtain ⟨⟨r, n⟩, hm, he⟩ := Option.map_eq_some_iff.mp h
  obtain ⟨hpos, hle⟩ := Lexicon.firstMatch?_bounds hm
  cases he
  simp only [advance, List.length_drop]
  omega

/-- Reads all tokens from `c` on and puts them behind those read before. The second part of the
    answer is the cursor that is left. -/
def readFrom (c : Cursor) (before : Array Token) : Except Error (Array Token) × Cursor :=
  match c.rest with
  | [] => (.ok before, c)
  | x :: _ =>
    match h : c.step? with
    | none => (.error (.illegalCharacter x c.place), c)
    | some (t, d) =>
      have := step?_length_lt h
      d.readFrom (t.elim before before.push)
termination_by c.rest.length

/-- Reads all tokens from `c` on. -/
def read (c : Cursor) : Except Error (Array Token) × Cursor := c.readFrom #[]

/-- The answers of reading `n` times in a row, each time from the cursor that was left. -/
def readTimes : Nat → Cursor → List (Except Error (Array Token))
  | 0, _ => []
  | n + 1, c => c.read.1 :: readTimes n c.read.2

end Cursor

/-- The tokens of a source text. -/
def tokenize (source : String) : Except Error (Array Token) := (Cursor.ofString source).read.1

/-- Tokens as they are shown, side by side. -/
def displayTokens (ts : Array Token) : String :=
  " ".intercalate (ts.toList.map Token.display)

end Imp
