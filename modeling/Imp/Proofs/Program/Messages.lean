import Imp.Proofs.Printing.Numerals
import Imp.Proofs.Program.Stages
import Imp.Proofs.Token.Lines
import Imp.Text.Lines

/-! # Messages stand on one line

Every error of a source text has a message without a newline. What a message quotes of the text is a token or an
illegal character, and a newline is neither: it is a blank, which is always read. -/

namespace Imp

open Text

variable {source : String} {ts : Array Token} {err : Error}

/-! ### What messages quote -/

theorem Kind.Spells.isLine {k : Kind} {x : String} (h : k.Spells x) : IsLine x := by
  cases k with
  | reserved => exact (show ∀ x ∈ Lexicon.reserved, IsLine x by decide) x h
  | numeral => exact fun hx => absurd (h.2 _ hx) (by decide)
  | name => exact fun hx => absurd (h.1.isNameChar _ hx) (by decide)

theorem Place.isLine_text (p : Place) : IsLine p.text := by
  unfold text
  simp only [isLine_append]
  exact ⟨⟨⟨by decide, isLine_repr _⟩, by decide⟩, isLine_repr _⟩

theorem isLine_toInt (n : Int64) : IsLine (toString n.toInt) := by
  by_cases hn : 0 ≤ n
  · rw [Numeral.toString_of_nonneg hn]
    exact isLine_repr _
  · rw [Numeral.toString_of_neg (Int64.not_le.mp hn), isLine_append]
    exact ⟨by decide, isLine_repr _⟩

theorem not_isBlank_of_tokenize {c : Char} {p : Place} (h : tokenize source = .error (.illegalCharacter c p)) :
    Pattern.isBlank c = false := by
  obtain ⟨ts, ⟨rest, place⟩, hp, hd⟩ := Cursor.exists_passes (.ofString source)
  cases rest with
  | nil =>
    rw [tokenize, hp.read_of_nil rfl] at h
    cases h
  | cons c' v =>
    rw [tokenize, hp.read_of_stuck hd rfl] at h
    cases h
    -- The scanner takes a step at every blank, and here it takes none.
    refine Bool.eq_false_iff.mpr fun hblank => ?_
    rw [Cursor.step?_blank hblank] at hd
    cases hd

/-! ### Messages -/

theorem Fault.isLine_message (f : Fault) : IsLine f.message := by
  unfold message
  cases f with
  | divisionByZero => decide
  | overflow op =>
    have hop : IsLine op.symbol := by cases op <;> decide
    simp only [isLine_append]
    exact ⟨⟨by decide, hop⟩, by decide⟩
  | tooManyIterations limit =>
    simp only [isLine_append]
    exact ⟨⟨by decide, isLine_repr _⟩, by decide⟩

theorem isLine_message_of_tokenize (h : tokenize source = .error err) : IsLine err.message := by
  obtain ⟨c, u, v, rfl, -⟩ := error_of_tokenize h
  have hc : c ≠ '\n' := by
    rintro rfl
    exact absurd (not_isBlank_of_tokenize h) (by decide)
  unfold Error.message
  simp only [isLine_append]
  exact ⟨⟨⟨by decide, isLine_singleton hc⟩, by decide⟩, Place.isLine_text _⟩

theorem Program.isLine_message_of_ofTokens (hts : tokenize source = .ok ts) (h : ofTokens ts = .error err) :
    IsLine err.message := by
  rcases error_of_ofTokens h with ⟨-, rfl⟩ | ⟨k, t, ht, rfl⟩
  · decide
  · have hline : IsLine t.text := (spells_of_tokenize hts t (Array.mem_toList_iff.mpr ht)).isLine
    unfold reported
    split
    · unfold Error.noStatement Error.message
      simp only [isLine_append]
      exact ⟨by decide, ⟨⟨by decide, hline⟩, by decide⟩, t.place.isLine_text⟩
    · unfold Error.leftover Error.message
      simp only [isLine_append]
      exact ⟨⟨⟨by decide, t.place.isLine_text⟩, by decide⟩, ⟨by decide, hline⟩, by decide⟩

theorem Program.isLine_message_of_ofSource (h : ofSource source = .error err) : IsLine err.message := by
  rcases ofSource_eq_error.mp h with h | ⟨ts, hts, h⟩
  · exact isLine_message_of_tokenize h
  · exact isLine_message_of_ofTokens hts h

/-- Why a source text has no result is told on one line. -/
theorem Program.isLine_message_of_answers {limit : Option UInt64} {e e' : Env}
    (h : Answers limit source e (.error err) e') : IsLine err.message := by
  rcases answers_error_iff.mp h with ⟨hs, -⟩ | ⟨s, f, -, -, rfl⟩
  · exact isLine_message_of_ofSource hs
  · exact f.isLine_message

end Imp
