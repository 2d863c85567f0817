import Imp.Proofs.Token.Places

/-! # Classes of tokens

The class of a token is a matter of its text alone: no text may have two classes. A token also ends where
its text does. What the rule for identifiers takes may be a reserved word, kept back from its own rule by
a word character beyond ASCII, but no lexeme begins with such a character, so that text has no tokens. -/

namespace Imp

/-! ### Texts of one class -/

theorem Lexicon.not_isDigit_of_reserved {x : String} (h : x ∈ reserved) : ¬ ∀ c ∈ x.toList, c.isDigit := by
  intro hd
  have hne : x.toList ≠ [] := (List.mem_append.mp h).elim (marks_ne_nil x) (words_ne_nil x)
  obtain ⟨c, u, hx⟩ := List.exists_cons_of_ne_nil hne
  have hdigit := hd c (by rw [hx]; exact List.mem_cons_self)
  have hhead : x.toList.head? = some c := by rw [hx]; rfl
  rcases List.mem_append.mp h with hm | hw
  · rw [(marks_open hm hhead).2.1] at hdigit
    cases hdigit
  · have halpha := words_open hw hhead
    rw [Text.not_isAlpha_of_isDigit hdigit] at halpha
    cases halpha

theorem IsIdentifier.isNameChar {x : String} (h : IsIdentifier x) : ∀ c ∈ x.toList, Text.isNameChar c := by
  obtain ⟨c, r, hx, hc, hr⟩ := h
  rw [hx]
  exact List.forall_mem_cons.mpr ⟨Text.isNameChar_of_isAlpha hc, hr⟩

theorem IsIdentifier.not_mem_marks {x : String} (h : IsIdentifier x) : x ∉ Lexicon.marks := by
  obtain ⟨c, r, hx, hc, -⟩ := h
  intro hm
  rw [(Lexicon.marks_open hm (by rw [hx]; rfl)).1] at hc
  cases hc

theorem IsIdentifier.not_isDigit {x : String} (h : IsIdentifier x) : ¬ ∀ c ∈ x.toList, c.isDigit := by
  obtain ⟨c, r, hx, hc, -⟩ := h
  intro hd
  have hdigit := hd c (by rw [hx]; exact List.mem_cons_self)
  rw [Text.not_isAlpha_of_isDigit hdigit] at hc
  cases hc

namespace Kind

variable {x : String} {k k' : Kind}

theorem not_spells_numeral_of_reserved (h : reserved.Spells x) : ¬ numeral.Spells x := fun hn =>
  Lexicon.not_isDigit_of_reserved h hn.2

theorem not_spells_name_of_reserved (h : reserved.Spells x) : ¬ name.Spells x := fun hn =>
  (List.mem_append.mp h).elim hn.1.not_mem_marks hn.2

theorem not_spells_name_of_numeral (h : numeral.Spells x) : ¬ name.Spells x := fun hn => hn.1.not_isDigit h.2

/-- No text may have two classes. -/
theorem Spells.unique (h : k.Spells x) (h' : k'.Spells x) : k = k' := by
  cases k with
  | reserved =>
    cases k' with
    | reserved => rfl
    | numeral => exact absurd h' (not_spells_numeral_of_reserved h)
    | name => exact absurd h' (not_spells_name_of_reserved h)
  | numeral =>
    cases k' with
    | reserved => exact absurd h (not_spells_numeral_of_reserved h')
    | numeral => rfl
    | name => exact absurd h' (not_spells_name_of_numeral h)
  | name =>
    cases k' with
    | reserved => exact absurd h (not_spells_name_of_reserved h')
    | numeral => exact absurd h (not_spells_name_of_numeral h')
    | name => rfl

theorem spells_reserved_iff : reserved.Spells x ↔ Lexicon.isReserved x := List.contains_iff_mem.symm

theorem spells_name_iff : name.Spells x ↔ IsIdentifier x ∧ ¬ Lexicon.isReserved x := by
  rw [← spells_reserved_iff]
  refine ⟨fun h => ⟨h.1, fun hr => not_spells_name_of_reserved hr h⟩, fun h => ⟨h.1, fun hw => ?_⟩⟩
  exact h.2 (List.mem_append_right _ hw)

end Kind

/-! ### Where a token ends -/

namespace Lexicon

variable {s : List Char} {n : Nat} {p : Pattern}

theorem not_mem_words_of_mem_marks : ∀ x ∈ marks, x ∉ words := by decide

/-- A run of characters ends in front of another character. -/
theorem head?_drop_takeWhile (q : Char → Bool) (s : List Char) :
    ∀ c ∈ (s.drop (s.takeWhile q).length).head?, q c = false := by
  intro c hc
  rw [← dropWhile_eq_drop] at hc
  have hstop := List.head?_dropWhile_not q s
  rwa [hc] at hstop

theorem numeral_ends (h : firstMatch? s = some (⟨p, some .numeral⟩, n)) :
    ∀ c ∈ (s.drop n).head?, c.isDigit = false := by
  obtain ⟨hr, hm⟩ := mem_of_firstMatch? h
  rcases cases_of_mem_rules hr with ⟨-, -, -, hk⟩ | ⟨-, -, -, hk⟩ | ⟨rfl, -⟩ | ⟨-, hk⟩
  · cases hk
  · cases hk
  · obtain ⟨rfl, -⟩ := Pattern.nonempty_eq_some.mp hm
    exact head?_drop_takeWhile Char.isDigit s
  · cases hk

theorem name_ends (h : firstMatch? s = some (⟨p, some .name⟩, n)) :
    ∀ c ∈ (s.drop n).head?, Text.isNameChar c = false := by
  obtain ⟨hr, hm⟩ := mem_of_firstMatch? h
  rcases cases_of_mem_rules hr with ⟨-, -, -, hk⟩ | ⟨-, -, -, hk⟩ | ⟨-, hk⟩ | ⟨rfl, -⟩
  · cases hk
  · cases hk
  · cases hk
  · obtain ⟨c, u, rfl, -, rfl⟩ := Pattern.identifier_matchLength?_iff.mp hm
    exact head?_drop_takeWhile Text.isNameChar u

theorem word_ends (h : firstMatch? s = some (⟨p, some .reserved⟩, n)) (hw : String.ofList (s.take n) ∈ words) :
    ∀ c ∈ (s.drop n).head?, Text.isWordChar c = false := by
  obtain ⟨hr, hm⟩ := mem_of_firstMatch? h
  rcases cases_of_mem_rules hr with ⟨t, ht, rfl, -⟩ | ⟨t, ht, rfl, -⟩ | ⟨-, hk⟩ | ⟨-, hk⟩
  · obtain ⟨hp, rfl, -⟩ := Pattern.mark_matchLength?_iff.mp hm
    rw [take_of_isPrefix hp] at hw
    exact absurd hw (not_mem_words_of_mem_marks t ht)
  · obtain ⟨-, hend, rfl, -⟩ := Pattern.word_matchLength?_iff.mp hm
    exact Pattern.endsWord_iff.mp hend
  · cases hk
  · cases hk

end Lexicon

namespace Cursor

open Lexicon

variable {c d : Cursor} {ts : List Token} {t : Token}

theorem exists_passes_of_tokenize {source : String} {ts : Array Token} (h : tokenize source = .ok ts) :
    ∃ d, Passes (.ofString source) ts.toList d ∧ d.rest = [] := by
  obtain ⟨us, d, hp, hd⟩ := exists_passes (.ofString source)
  cases hrest : d.rest with
  | nil =>
    rw [tokenize, hp.read_of_nil hrest] at h
    cases h
    exact ⟨d, hp, hrest⟩
  | cons x s =>
    rw [tokenize, hp.read_of_stuck hd hrest] at h
    cases h

/-- A token that is passed is read on the way. -/
theorem Passes.of_mem (h : Passes c ts d) (ht : t ∈ ts) :
    ∃ us vs f g, Passes c us f ∧ f.step? = some (some t, g) ∧ Passes g vs d := by
  induction h with
  | here => cases ht
  | skip hs _ ih =>
    obtain ⟨us, vs, f, g, hf, hstep, hg⟩ := ih ht
    exact ⟨us, vs, f, g, .skip hs hf, hstep, hg⟩
  | @token c d _ u us hs hd ih =>
    rcases List.mem_cons.mp ht with rfl | ht
    · exact ⟨[], us, c, d, .here, hs, hd⟩
    · obtain ⟨us, vs, f, g, hf, hstep, hg⟩ := ih ht
      exact ⟨u :: us, vs, f, g, .token hs hf, hstep, hg⟩

/-- What is read to the end does not begin beyond ASCII. -/
theorem Passes.toNat_lt (h : Passes c ts d) (hd : d.rest = []) : ∀ x ∈ c.rest.head?, x.toNat < 0x80 := by
  intro x hx
  obtain ⟨s, hs⟩ : ∃ s, c.rest = x :: s := List.head?_eq_some_iff.mp hx
  refine Nat.lt_of_not_le fun hle => ?_
  have hnone : c.step? = none := by
    rw [step?, hs, firstMatch?_eq_none hle]
    rfl
  cases h with
  | here =>
    rw [hd] at hs
    cases hs
  | skip hstep _ | token hstep _ =>
    rw [hnone] at hstep
    cases hstep

/-- Digits do not follow a numeral, nor word characters a name or a reserved word. -/
theorem step?_token_ends (h : c.step? = some (some t, d)) (hd : ∀ x ∈ d.rest.head?, x.toNat < 0x80) :
    (t.kind = .numeral → ∀ x ∈ d.rest.head?, ¬ x.isDigit) ∧
      (t.kind = .name ∨ t.kind = .reserved ∧ t.text ∈ words → ∀ x ∈ d.rest.head?, ¬ Text.isWordChar x) := by
  obtain ⟨⟨p, k⟩, n, hm, ht, rfl⟩ := step?_eq_some_iff.mp h
  cases k with
  | none => cases ht
  | some k =>
    cases ht
    refine ⟨?_, ?_⟩
    · rintro rfl x hx
      exact Bool.eq_false_iff.mp (numeral_ends hm x hx)
    · rintro (rfl | ⟨rfl, hw⟩) x hx
      · -- Beyond ASCII there are other word characters, but nothing could be read from there.
        have hname := Bool.eq_false_iff.mp (name_ends hm x hx)
        exact fun hword => Nat.not_lt_of_le (Text.le_toNat_of_isWordChar hword hname) (hd x hx)
      · exact Bool.eq_false_iff.mp (word_ends hm hw x hx)

end Cursor

/-- The class of a token is the one that its text may have: it is reserved if its text is, a numeral if its text
    consists of digits, and a name if its text is an identifier that is not reserved. Where the token stands, no
    digit follows a numeral, and no word character follows a name or a reserved word. -/
theorem tokenize_classifies {source : String} {ts : Array Token} (h : tokenize source = .ok ts) : ∀ t ∈ ts,
    (t.kind = .reserved ↔ Lexicon.isReserved t.text) ∧
    (t.kind = .numeral ↔ t.text ≠ "" ∧ ∀ c ∈ t.text.toList, c.isDigit) ∧
    (t.kind = .name ↔ IsIdentifier t.text ∧ ¬ Lexicon.isReserved t.text) ∧
    ∃ before rest, source.toList = before ++ t.text.toList ++ rest ∧ t.place = Place.behind before ∧
      (t.kind = .numeral → ∀ c ∈ rest.head?, ¬ c.isDigit) ∧
      (t.kind = .name ∨ t.text ∈ Lexicon.words → ∀ c ∈ rest.head?, ¬ Text.isWordChar c) := by
  intro t ht
  have hspells := spells_of_tokenize h t (Array.mem_toList_iff.mpr ht)
  have hkind : ∀ k, t.kind = k ↔ k.Spells t.text := fun k => ⟨fun hk => hk ▸ hspells, fun hk => hspells.unique hk⟩
  refine ⟨(hkind _).trans Kind.spells_reserved_iff, hkind _, (hkind _).trans Kind.spells_name_iff, ?_⟩
  obtain ⟨d, hp, hd⟩ := Cursor.exists_passes_of_tokenize h
  obtain ⟨_, _, f, g, hf, hstep, hg⟩ := hp.of_mem (Array.mem_toList_iff.mpr ht)
  obtain ⟨before, hbefore, hplace⟩ := hf.rest_eq
  obtain ⟨hrest, -, htplace, -⟩ := Cursor.step?_token hstep
  obtain ⟨hnumeral, hword⟩ := Cursor.step?_token_ends hstep (hg.toNat_lt hd)
  refine ⟨before, g.rest, ?_, ?_, hnumeral, fun hk => hword (hk.imp_right fun hw => ⟨?_, hw⟩)⟩
  · rw [List.append_assoc, ← hrest]
    exact hbefore
  · rw [htplace, hplace]
    exact Place.after_origin before
  · exact (hkind .reserved).mpr (List.mem_append_right Lexicon.marks hw)

theorem tokenize_classifies_word :
    let ts : Array Token := #[⟨"do1", .name, ⟨1, 1⟩⟩, ⟨"do", .reserved, ⟨1, 5⟩⟩, ⟨"7", .numeral, ⟨1, 8⟩⟩, ⟨"x", .name, ⟨1, 9⟩⟩]
    tokenize "do1 do 7x" = .ok ts ∧ ⟨"do", .reserved, ⟨1, 5⟩⟩ ∈ ts ∧ Lexicon.isReserved "do" ∧
      ∃ before rest, "do1 do 7x".toList = before ++ "do".toList ++ rest ∧ Place.behind before = ⟨1, 5⟩ ∧
        ∀ c ∈ rest.head?, ¬ Text.isWordChar c := by
  intro ts
  have hp : Cursor.Passes (.ofString "do1 do 7x") ts.toList ⟨[], ⟨1, 10⟩⟩ :=
    .token rfl (.skip rfl (.token rfl (.skip rfl (.token rfl (.token rfl .here)))))
  have hts : tokenize "do1 do 7x" = .ok ts := by rw [tokenize, hp.read_of_nil rfl]
  have hmem : (⟨"do", .reserved, ⟨1, 5⟩⟩ : Token) ∈ ts := by simp [ts]
  obtain ⟨hreserved, -, -, before, rest, hs, hplace, -, hword⟩ := tokenize_classifies hts _ hmem
  exact ⟨hts, hmem, hreserved.mp rfl, before, rest, hs, hplace.symm, hword (Or.inr (by decide))⟩

end Imp
