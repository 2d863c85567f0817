import Imp.Program.Runs
import Imp.Proofs.Printing.RoundTrip
import Imp.Proofs.Token.Places

/-! # Formatting

Whatever source text a program is read from, with parentheses too many, comments or leading zeros, the
program is in normal form. So its written form is read as the same program again: writing it out once
more changes nothing, and it runs as the source text does. -/

namespace Imp.Program

variable {source text : String} {s : Stmt}

theorem format_eq_ok : format source = .ok text ↔ ∃ s, ofSource source = .ok s ∧ text = s.text := by
  unfold format
  cases ofSource source with
  | error err => simp [Except.map]
  | ok s => simp [Except.map, eq_comm]

/-- A source text is a program if the tokens that are passed up to its end derive one. -/
theorem ofSource_of_passes {ts : List Token} {d : Cursor} (h : Cursor.Passes (.ofString source) ts d) (hd : d.rest = [])
    (hs : Stmt.Derives .block ts s) : ofSource source = .ok s := by
  refine ofSource_eq_ok.mpr ⟨ts.toArray, ?_, hs⟩
  rw [tokenize, h.read_of_nil hd]

/-- The written form of a program is the same program. -/
theorem ofSource_text_of_ofSource (h : ofSource source = .ok s) : ofSource s.text = .ok s := by
  have hnormal := isNormal h
  rw [ofSource_text_eq_ok hnormal.names hnormal.constants, Stmt.nestLeft_of_nestsLeft hnormal.nestsLeft]

theorem ends_congr {limit : Option UInt64} {e : Env} {o : Outcome} (h : ofSource source = ofSource text) :
    Ends limit source e o ↔ Ends limit text e o := by
  rw [Ends, Ends, h]

theorem diverges_congr {limit : Option UInt64} {e : Env} (h : ofSource source = ofSource text) :
    Diverges limit source e ↔ Diverges limit text e := by
  rw [Diverges, Diverges, h]

/-- Every program that is read is in normal form: its names are identifiers and not reserved, its
    constants are not negative, and no sequence is the second part of another. So its written form is
    read as the same program, formatting is idempotent, and the formatted text runs as the source text
    does, from every environment and with every limit. -/
theorem format_idempotent (h : ofSource source = .ok s) :
    (∀ x ∈ s.names, IsIdentifier x ∧ x ∉ Lexicon.words) ∧
    (∀ n ∈ s.constants, 0 ≤ n.toInt ∧ n.toInt ≤ 9223372036854775807) ∧
    s.NestsLeft ∧
    ofSource s.text = .ok s ∧
    format source = .ok s.text ∧ format s.text = .ok s.text ∧
    ∀ limit e, (∀ o, Ends limit s.text e o ↔ Ends limit source e o) ∧
      (Diverges limit s.text e ↔ Diverges limit source e) := by
  have hnormal := isNormal h
  have htext := ofSource_text_of_ofSource h
  have hsame : ofSource s.text = ofSource source := by rw [htext, h]
  refine ⟨hnormal.names, fun n hn => ⟨?_, n.toInt_le⟩, hnormal.nestsLeft, htext, format_eq_ok.mpr ⟨s, h, rfl⟩,
    format_eq_ok.mpr ⟨s, htext, rfl⟩, fun limit e => ⟨fun o => ends_congr hsame, diverges_congr hsame⟩⟩
  have := Int64.le_iff_toInt_le.mp (hnormal.constants n hn)
  rwa [Int64.toInt_zero] at this

theorem format_idempotent_parentheses :
    ofSource "x:=(01)#" = .ok (.assign "x" (.const 1)) ∧ format "x:=(01)#" = .ok "x := 1" ∧
      format "x := 1" = .ok "x := 1" := by
  have hp : Cursor.Passes (.ofString "x:=(01)#")
      [⟨"x", .name, ⟨1, 1⟩⟩, ⟨":=", .reserved, ⟨1, 2⟩⟩, ⟨"(", .reserved, ⟨1, 4⟩⟩, ⟨"01", .numeral, ⟨1, 5⟩⟩,
        ⟨")", .reserved, ⟨1, 7⟩⟩] ⟨[], ⟨1, 9⟩⟩ :=
    .token rfl (.token rfl (.token rfl (.token rfl (.token rfl (.skip rfl .here)))))
  have h : ofSource "x:=(01)#" = .ok (.assign "x" (.const 1)) := by
    refine ofSource_of_passes hp rfl (.single (.assign rfl ⟨rfl, rfl⟩ (.single (.term ?_))))
    exact .group ⟨rfl, rfl⟩ (.single (.term (.const rfl (by decide)))) ⟨rfl, rfl⟩
  have hall := format_idempotent h
  exact ⟨h, hall.2.2.2.2.1, hall.2.2.2.2.2.1⟩

end Imp.Program
