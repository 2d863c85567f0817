import Imp.Text.WordChar
import Imp.Token

/-! # The lexicon

The lexicon is an ordered table of rules. At each place of a source text the first rule that matches
takes its lexeme, which becomes a token or, for blanks and comments, is skipped. So a longer mark
stands before its own beginning (`<=` before `<`), and the reserved words stand before the rule for
identifiers. A reserved word is matched only where the word ends: `done` is an identifier, and `doé`
is neither. -/

namespace Imp

/-- The texts that a rule accepts. -/
inductive Pattern where
  /-- A run of spaces, tabs, newlines and carriage returns. -/
  | blanks
  /-- A number sign and the rest of its line. -/
  | comment
  /-- This very text. -/
  | mark (text : List Char)
  /-- This very text, where no word character follows. -/
  | word (text : List Char)
  /-- A run of decimal digits. -/
  | digits
  /-- A letter with the letters, digits and underscores that follow. -/
  | identifier
deriving DecidableEq, Repr

namespace Pattern

/-- The characters that separate tokens and mean nothing else. -/
def isBlank (c : Char) : Bool :=
  c = ' ' || c = '\n' || c = '\t' || c = '\r'

/-- Whether a word may end in front of this text. -/
def endsWord : List Char → Bool
  | [] => true
  | c :: _ => !Text.isWordChar c

/-- A run, if it is not empty. -/
def nonempty (n : Nat) : Option Nat :=
  if n = 0 then none else some n

/-- The number of characters that a pattern takes at the start of a text, if it matches there. No
    pattern matches the empty text. -/
def matchLength? : Pattern → List Char → Option Nat
  | blanks, s => nonempty (s.takeWhile isBlank).length
  | comment, s =>
    match s with
    | '#' :: r => some ((r.takeWhile (· ≠ '\n')).length + 1)
    | _ => none
  | mark t, s => if t.isPrefixOf s then nonempty t.length else none
  | word t, s => if t.isPrefixOf s && endsWord (s.drop t.length) then nonempty t.length else none
  | digits, s => nonempty (s.takeWhile Char.isDigit).length
  | identifier, s =>
    match s with
    | c :: r => if c.isAlpha then some ((r.takeWhile Text.isNameChar).length + 1) else none
    | [] => none

end Pattern

namespace Lexicon

/-- An entry of the lexicon: what it matches and the class of the token made of it. Without a class
    the text is skipped. -/
structure Rule where
  pattern : Pattern
  kind : Option Kind
deriving DecidableEq, Repr

/-- The punctuation and the operators that are written with marks. -/
def marks : List String :=
  [":=", "(", ")", ";", "+", "-", "*", "/", "<=", "<", ">=", ">", "=", "!="]

/-- The reserved words. -/
def words : List String :=
  ["and", "or", "not", "if", "then", "else", "while", "do", "end"]

/-- The rules, in the order in which they are tried. -/
def rules : List Rule :=
  [⟨.blanks, none⟩, ⟨.comment, none⟩]
    ++ marks.map (fun t => ⟨.mark t.toList, some .reserved⟩)
    ++ words.map (fun t => ⟨.word t.toList, some .reserved⟩)
    ++ [⟨.digits, some .numeral⟩, ⟨.identifier, some .name⟩]

/-- The texts that are reserved, and so never identifiers. -/
def reserved : List String := marks ++ words

/-- Whether a text is reserved. -/
def isReserved (text : String) : Bool := reserved.contains text

/-- The first rule that matches at the start of a text, with the length of its match. -/
def firstMatch? (s : List Char) : Option (Rule × Nat) :=
  rules.findSome? fun r => (r.pattern.matchLength? s).map (r, ·)

/-- Every rule that matches at the start of a text: its index in the table, the length of its match
    and the class of the token it makes. -/
def allMatches (s : List Char) : List (Nat × Nat × Option Kind) :=
  rules.zipIdx.filterMap fun (r, i) => (r.pattern.matchLength? s).map (i, ·, r.kind)

end Lexicon

/-! ### The length of a match -/

namespace Pattern

theorem endsWord_iff {s : List Char} : endsWord s ↔ ∀ c ∈ s.head?, Text.isWordChar c = false := by
  cases s <;> simp [endsWord]

theorem nonempty_eq_some {n m : Nat} : nonempty n = some m ↔ n = m ∧ 0 < m := by
  unfold nonempty
  split <;> simp <;> omega

theorem comment_matchLength?_iff {s : List Char} {n : Nat} :
    comment.matchLength? s = some n ↔ ∃ u, s = '#' :: u ∧ n = (u.takeWhile (· ≠ '\n')).length + 1 := by
  constructor
  · intro h
    simp only [matchLength?] at h
    split at h
    · next u =>
      cases h
      exact ⟨u, rfl, rfl⟩
    · cases h
  · rintro ⟨u, rfl, rfl⟩
    rfl

theorem mark_matchLength?_iff {t s : List Char} {n : Nat} :
    (mark t).matchLength? s = some n ↔ t <+: s ∧ n = t.length ∧ 0 < n := by
  simp only [matchLength?, List.isPrefixOf_iff_prefix]
  by_cases h : t <+: s
  · rw [if_pos h, nonempty_eq_some, and_iff_right h, eq_comm]
  · simp [h]

theorem word_matchLength?_iff {t s : List Char} {n : Nat} :
    (word t).matchLength? s = some n ↔ t <+: s ∧ endsWord (s.drop t.length) ∧ n = t.length ∧ 0 < n := by
  simp only [matchLength?, Bool.and_eq_true, List.isPrefixOf_iff_prefix]
  by_cases h : t <+: s ∧ endsWord (s.drop t.length)
  · rw [if_pos h, nonempty_eq_some, and_iff_right h.1, and_iff_right h.2, eq_comm]
  · rw [if_neg h]
    exact iff_of_false nofun fun hs => h ⟨hs.1, hs.2.1⟩

theorem identifier_matchLength?_iff {s : List Char} {n : Nat} : identifier.matchLength? s = some n ↔
    ∃ c u, s = c :: u ∧ c.isAlpha ∧ n = (u.takeWhile Text.isNameChar).length + 1 := by
  constructor
  · intro h
    simp only [matchLength?] at h
    split at h
    · next c u =>
      split at h
      · next hc =>
        cases h
        exact ⟨c, u, rfl, hc, rfl⟩
      · cases h
    · cases h
  · rintro ⟨c, u, rfl, hc, rfl⟩
    exact if_pos hc

/-- A match takes at least one character, and no more than there are. -/
theorem matchLength?_bounds {p : Pattern} {s : List Char} {n : Nat} (h : p.matchLength? s = some n) :
    0 < n ∧ n ≤ s.length := by
  have hrun : ∀ q : Char → Bool, nonempty (s.takeWhile q).length = some n → 0 < n ∧ n ≤ s.length := fun q hq => by
    obtain ⟨rfl, hn⟩ := nonempty_eq_some.mp hq
    exact ⟨hn, (List.takeWhile_sublist q).length_le⟩
  cases p with
  | blanks => exact hrun _ h
  | digits => exact hrun _ h
  | comment =>
    obtain ⟨u, rfl, rfl⟩ := comment_matchLength?_iff.mp h
    exact ⟨Nat.succ_pos _, Nat.succ_le_succ (List.takeWhile_sublist _).length_le⟩
  | mark t =>
    obtain ⟨ht, rfl, hn⟩ := mark_matchLength?_iff.mp h
    exact ⟨hn, ht.length_le⟩
  | word t =>
    obtain ⟨ht, -, rfl, hn⟩ := word_matchLength?_iff.mp h
    exact ⟨hn, ht.length_le⟩
  | identifier =>
    obtain ⟨c, u, rfl, -, rfl⟩ := identifier_matchLength?_iff.mp h
    exact ⟨Nat.succ_pos _, Nat.succ_le_succ (List.takeWhile_sublist _).length_le⟩

end Pattern

theorem Lexicon.firstMatch?_bounds {s : List Char} {r : Lexicon.Rule} {n : Nat} (h : firstMatch? s = some (r, n)) :
    0 < n ∧ n ≤ s.length := by
  obtain ⟨r', -, h'⟩ := List.exists_of_findSome?_eq_some h
  obtain ⟨m, hm, he⟩ := Option.map_eq_some_iff.mp h'
  cases he
  exact Pattern.matchLength?_bounds hm

end Imp
