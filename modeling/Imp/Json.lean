/-! # JSON

Values of JSON and their two layouts. The fields of an object keep their order. Strings are escaped as
little as JSON allows: the quotation mark, the backslash and the control characters below the space,
five of which have a short form. All other characters stand for themselves. -/

namespace Imp

/-- A value of JSON. -/
inductive Json where
  | null
  | bool (b : Bool)
  /-- The number `mantissa / 10 ^ decimals`. An integer is one without decimals. -/
  | number (mantissa : Int) (decimals : Nat)
  | string (s : String)
  | array (items : List Json)
  | object (fields : List (String × Json))
deriving Repr, Inhabited

namespace Json

/-! ### Text -/

/-- A hexadecimal digit, in lower case. -/
def hexDigit (n : Nat) : Char :=
  if n < 10 then Char.ofNat (n + '0'.toNat) else Char.ofNat (n - 10 + 'a'.toNat)

/-- How a character stands within a string. -/
def escape (c : Char) : List Char :=
  if c = '"' then ['\\', '"']
  else if c = '\\' then ['\\', '\\']
  else if c = '\n' then ['\\', 'n']
  else if c = '\r' then ['\\', 'r']
  else if c = '\t' then ['\\', 't']
  else if c.toNat = 0x08 then ['\\', 'b']
  else if c.toNat = 0x0C then ['\\', 'f']
  else if c.toNat < 0x20 then ['\\', 'u', '0', '0', hexDigit (c.toNat / 16), hexDigit (c.toNat % 16)]
  else [c]

/-- A string between quotation marks. -/
def quote (s : String) : String :=
  "\"" ++ String.ofList (s.toList.flatMap escape) ++ "\""

/-- A number. The exponent stands only if there are decimals. -/
def numberText (mantissa : Int) (decimals : Nat) : String :=
  if decimals = 0 then toString mantissa else toString mantissa ++ "e-" ++ toString decimals

mutual

/-- A value on one line, without blanks. -/
def compact : Json → String
  | null => "null"
  | bool b => if b then "true" else "false"
  | number m d => numberText m d
  | string s => quote s
  | array items => "[" ++ compactItems items ++ "]"
  | object fields => "\x7b" ++ compactFields fields ++ "\x7d"

/-- Items with commas between them. -/
def compactItems : List Json → String
  | [] => ""
  | [j] => j.compact
  | j :: k :: rest => j.compact ++ "," ++ compactItems (k :: rest)

/-- Fields with commas between them. -/
def compactFields : List (String × Json) → String
  | [] => ""
  | [(k, v)] => quote k ++ ":" ++ v.compact
  | (k, v) :: f :: rest => quote k ++ ":" ++ v.compact ++ "," ++ compactFields (f :: rest)

end

/-- The start of a line that is indented `depth` times. -/
def newline (depth : Nat) : String :=
  "\n" ++ String.ofList (List.replicate (2 * depth) ' ')

mutual

/-- A value with each item and each field on a line of its own, indented by two spaces for each level
    around it. What is empty stays on its line. -/
def pretty (depth : Nat) : Json → String
  | array (j :: rest) => "[" ++ prettyItems (depth + 1) (j :: rest) ++ newline depth ++ "]"
  | object (f :: rest) => "\x7b" ++ prettyFields (depth + 1) (f :: rest) ++ newline depth ++ "\x7d"
  | j => j.compact

/-- Items, each on a line of its own. -/
def prettyItems (depth : Nat) : List Json → String
  | [] => ""
  | [j] => newline depth ++ j.pretty depth
  | j :: k :: rest => newline depth ++ j.pretty depth ++ "," ++ prettyItems depth (k :: rest)

/-- Fields, each on a line of its own. -/
def prettyFields (depth : Nat) : List (String × Json) → String
  | [] => ""
  | [(k, v)] => newline depth ++ quote k ++ ": " ++ v.pretty depth
  | (k, v) :: f :: rest =>
    newline depth ++ quote k ++ ": " ++ v.pretty depth ++ "," ++ prettyFields depth (f :: rest)

end

/-! ### Looking into a value -/

/-- An integer. -/
def int (n : Int) : Json := number n 0

/-- The integer that a value is, if it is one. -/
def int? : Json → Option Int
  | number m 0 => some m
  | _ => none

/-- The string that a value is, if it is one. -/
def string? : Json → Option String
  | string s => some s
  | _ => none

/-- The value of a field of an object. -/
def field? (k : String) : Json → Option Json
  | object fields => fields.lookup k
  | _ => none

/-- The name and the value of the only field of an object. -/
def variant? : Json → Option (String × Json)
  | object [f] => some f
  | _ => none

/-- The two items of a pair. -/
def pair? : Json → Option (Json × Json)
  | array [j, k] => some (j, k)
  | _ => none

theorem sizeOf_field?_lt {j v : Json} {k : String} (h : j.field? k = some v) : sizeOf v < sizeOf j := by
  cases j with
  | object fields =>
    simp only [field?] at h
    have : ∀ l : List (String × Json), l.lookup k = some v → sizeOf v < 1 + sizeOf l := by
      intro l
      induction l with
      | nil => intro h; cases h
      | cons p r ih =>
        intro h
        obtain ⟨k', w⟩ := p
        simp only [List.lookup_cons] at h
        simp only [List.cons.sizeOf_spec, Prod.mk.sizeOf_spec]
        split at h
        · cases h
          omega
        · have := ih h
          omega
    rw [object.sizeOf_spec]
    exact this fields h
  | _ => cases h

theorem sizeOf_variant?_lt {j v : Json} {k : String} (h : j.variant? = some (k, v)) : sizeOf v < sizeOf j := by
  unfold variant? at h
  split at h
  · cases h
    simp only [object.sizeOf_spec, List.cons.sizeOf_spec, List.nil.sizeOf_spec, Prod.mk.sizeOf_spec]
    omega
  · cases h

theorem sizeOf_pair?_lt {j v w : Json} (h : j.pair? = some (v, w)) :
    sizeOf v < sizeOf j ∧ sizeOf w < sizeOf j := by
  unfold pair? at h
  split at h
  · cases h
    simp only [array.sizeOf_spec, List.cons.sizeOf_spec, List.nil.sizeOf_spec]
    omega
  · cases h

end Json

end Imp
