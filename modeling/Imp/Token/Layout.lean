import Imp.Error
import Imp.Token.Lexicon

/-! # Texts laid out as tokens

What a text is made of, apart from any way to read it: tokens with gaps between them. A gap is made
of blanks and of comments that a newline ends; behind the last token a comment may also run to the
end of the text. The place of a token is counted from what stands before it. -/

namespace Imp

/-! ### Places -/

/-- The place behind a text: a line for each newline in it, and a column for each character behind the
    last one. -/
def Place.behind (before : List Char) : Place :=
  ⟨1 + before.count '\n', 1 + (before.reverse.takeWhile (· ≠ '\n')).length⟩

theorem Place.after_origin (before : List Char) : Place.origin.after before = Place.behind before := by
  suffices h : ∀ l : List Char, Place.origin.after l.reverse = Place.behind l.reverse by
    simpa using h before.reverse
  intro l
  induction l with
  | nil => rfl
  | cons c l ih =>
    rw [List.reverse_cons, after_append, ih]
    by_cases hc : c = '\n' <;> simp [behind, next, hc, Nat.add_comm]

/-- The place in the same column `n` lines further down. -/
def Place.below (n : Nat) (p : Place) : Place := ⟨p.line + n, p.column⟩

/-- The token `n` lines further down. -/
def Token.below (n : Nat) (t : Token) : Token := { t with place := t.place.below n }

/-- The report of an illegal character `n` lines further down. -/
def Error.below (n : Nat) : Error → Error
  | illegalCharacter c p => illegalCharacter c (p.below n)
  | err => err

theorem Place.next_below (p : Place) (n : Nat) (c : Char) : (p.below n).next c = (p.next c).below n := by
  by_cases hc : c = '\n'
  · simp [next, below, hc, Nat.add_right_comm]
  · simp [next, below, hc]

theorem Place.after_below (p : Place) (n : Nat) (cs : List Char) : (p.below n).after cs = (p.after cs).below n := by
  induction cs generalizing p with
  | nil => rfl
  | cons c cs ih => rw [after_cons, next_below, ih, after_cons]

/-! ### Lexemes -/

/-- The text is a letter with letters, digits and underscores behind it. -/
def IsIdentifier (text : String) : Prop :=
  ∃ c r, text.toList = c :: r ∧ c.isAlpha ∧ ∀ d ∈ r, Text.isNameChar d

/-- The text may be the text of a token of this class. -/
def Kind.Spells : Kind → String → Prop
  | reserved, text => text ∈ Lexicon.reserved
  | numeral, text => text ≠ "" ∧ ∀ c ∈ text.toList, c.isDigit
  | name, text => IsIdentifier text ∧ text ∉ Lexicon.words

/-! ### Gaps -/

/-- Blanks, and comments with the newlines that end them. -/
inductive IsGap : List Char → Prop where
  | nil : IsGap []
  | blank {c : Char} {g : List Char} : Pattern.isBlank c → IsGap g → IsGap (c :: g)
  | comment {cs g : List Char} : '\n' ∉ cs → IsGap g → IsGap ('#' :: cs ++ '\n' :: g)

/-- What may stand behind the last token: a gap, or a gap and a comment that nothing ends. -/
def IsFinalGap (s : List Char) : Prop :=
  IsGap s ∨ ∃ g cs, IsGap g ∧ '\n' ∉ cs ∧ s = g ++ '#' :: cs

/-- The text consists of these tokens with a gap in front of each, and of a text that `Last` accepts
    behind them. Here `before` stands in front of the text, and every token is at its place. -/
inductive LaidOut (Last : List Char → Prop) : List Char → List Token → List Char → Prop where
  | last {before g : List Char} : Last g → LaidOut Last before [] g
  | token {before g s : List Char} {t : Token} {ts : List Token} : IsGap g → t.place = Place.behind (before ++ g) →
      LaidOut Last (before ++ g ++ t.text.toList) ts s → LaidOut Last before (t :: ts) (g ++ t.text.toList ++ s)

/-- Texts with a gap in front of each, and one behind the last. The classes of the texts are noted beside them. -/
def spaced (last : List Char) : List (List Char × String × Kind) → List Char
  | [] => last
  | (g, x, _) :: l => g ++ x.toList ++ spaced last l

/-- Every text may have its class, and gaps stand around the texts: between two of them there is at least
    a blank or a comment. -/
structure IsSpacing (pieces : List (List Char × String × Kind)) (last : List Char) : Prop where
  spells : ∀ p ∈ pieces, p.2.2.Spells p.2.1
  gaps : ∀ p ∈ pieces, IsGap p.1
  inner : ∀ p ∈ pieces.tail, p.1 ≠ []
  last : IsFinalGap last

/-- A rule that makes tokens of this class takes the whole text. -/
def Token.IsLexeme (t : Token) : Prop :=
  ∃ r ∈ Lexicon.rules, r.kind = some t.kind ∧ r.pattern.matchLength? t.text.toList = some t.text.toList.length

theorem isGap_of_blank {g : List Char} (h : ∀ c ∈ g, Pattern.isBlank c) : IsGap g := by
  induction g with
  | nil => exact .nil
  | cons c g ih =>
    obtain ⟨hc, hg⟩ := List.forall_mem_cons.mp h
    exact .blank hc (ih hg)

theorem IsGap.append {g h : List Char} (hg : IsGap g) (hh : IsGap h) : IsGap (g ++ h) := by
  induction hg with
  | nil => exact hh
  | blank hc _ ih => exact .blank hc ih
  | @comment cs g hc _ ih => simpa using IsGap.comment hc ih

theorem LaidOut.mono {Last Last' : List Char → Prop} (hl : ∀ g, Last g → Last' g) {before s : List Char}
    {ts : List Token} (h : LaidOut Last before ts s) : LaidOut Last' before ts s := by
  induction h with
  | last hg => exact .last (hl _ hg)
  | token hg hp _ ih => exact .token hg hp ih

/-- A gap may be split off in front of the text. -/
theorem LaidOut.prepend {Last : List Char → Prop} {before g s : List Char} {ts : List Token} (hg : IsGap g)
    (hl : ∀ s, Last s → Last (g ++ s)) (h : LaidOut Last (before ++ g) ts s) : LaidOut Last before ts (g ++ s) := by
  cases h with
  | last hs => exact .last (hl s hs)
  | @token _ g' s t ts hg' hp h =>
    have hplace : t.place = Place.behind (before ++ (g ++ g')) := by rw [hp, List.append_assoc]
    have hrest : LaidOut Last (before ++ (g ++ g') ++ t.text.toList) ts s := by
      rw [← List.append_assoc before g g']
      exact h
    simpa only [List.append_assoc] using LaidOut.token (hg.append hg') hplace hrest

end Imp
