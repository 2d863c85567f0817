import Imp.Token.Layout

/-! # What the lexicon matches

The first character of a text says which rules may match there. At a letter these are the reserved
words and the rule for identifiers, and there the whole word decides: it is a reserved word if it is
one of them and ends where a word may end, and an identifier otherwise. A character beyond ASCII
starts no lexeme. -/

namespace Imp

/-! ### Characters -/

namespace Text

variable {c : Char}

theorem isNameChar_of_isAlpha (h : c.isAlpha) : isNameChar c := by simp [isNameChar, Char.isAlphanum, h]

theorem isNameChar_of_isDigit (h : c.isDigit) : isNameChar c := by simp [isNameChar, Char.isAlphanum, h]

theorem bounds_of_isAlpha (h : c.isAlpha) : 65 ≤ c.toNat ∧ c.toNat ≤ 122 := by
  have hcase : c.isUpper ∨ c.isLower := Bool.or_eq_true_iff.mp h
  rcases hcase with hu | hl
  · have hbounds : 65 ≤ c.toNat ∧ c.toNat ≤ 90 := of_decide_eq_true hu
    exact ⟨hbounds.1, Nat.le_trans hbounds.2 (by decide)⟩
  · have hbounds : (decide (97 ≤ c.toNat) && decide (c.toNat ≤ 122)) = true := hl
    obtain ⟨hlo, hhi⟩ := Bool.and_eq_true_iff.mp hbounds
    exact ⟨Nat.le_trans (by decide) (of_decide_eq_true hlo), of_decide_eq_true hhi⟩

theorem not_isAlpha_of_isDigit (h : c.isDigit) : c.isAlpha = false := by
  rw [Bool.eq_false_iff]
  intro ha
  have hlt : c.toNat < 65 := Nat.lt_of_le_of_lt (Char.isDigit_iff_toNat.mp h).2 (by decide)
  exact Nat.not_le_of_lt hlt (bounds_of_isAlpha ha).1

theorem not_isDigit_of_isAlpha (h : c.isAlpha) : c.isDigit = false := by
  rw [Bool.eq_false_iff]
  intro hd
  rw [not_isAlpha_of_isDigit hd] at h
  cases h

theorem toNat_lt_of_isNameChar (h : isNameChar c) : c.toNat < 0x80 := by
  simp only [isNameChar, Char.isAlphanum, Bool.or_eq_true, decide_eq_true_eq] at h
  rcases h with (h | h) | rfl
  · exact Nat.lt_of_le_of_lt (bounds_of_isAlpha h).2 (by decide)
  · exact Nat.lt_of_le_of_lt (Char.isDigit_iff_toNat.mp h).2 (by decide)
  · decide

theorem isWordChar_of_isNameChar (h : isNameChar c) : isWordChar c := by
  rw [isWordChar, if_pos (toNat_lt_of_isNameChar h)]
  exact h

theorem not_isNameChar_of_not_isWordChar (h : isWordChar c = false) : isNameChar c = false := by
  rw [Bool.eq_false_iff] at h ⊢
  exact mt isWordChar_of_isNameChar h

/-- Within ASCII there are no other word characters. -/
theorem le_toNat_of_isWordChar (h : isWordChar c) (hn : ¬ isNameChar c) : 0x80 ≤ c.toNat := by
  refine Nat.le_of_not_lt fun hlt => hn ?_
  rwa [isWordChar, if_pos hlt] at h

end Text

/-! ### Runs of characters -/

theorem takeWhile_append_of_head {p : Char → Bool} {xs rest : List Char} (hx : ∀ c ∈ xs, p c)
    (hr : ∀ c ∈ rest.head?, p c = false) : (xs ++ rest).takeWhile p = xs := by
  rw [List.takeWhile_append_of_pos hx]
  cases rest with
  | nil => simp
  | cons c rest => simp [hr c rfl]

namespace Pattern

variable {p : Pattern} {c : Char} {s : List Char} {n : Nat}

/-- Whether a text that the pattern accepts may begin with this character. -/
def opens : Pattern → Char → Bool
  | blanks, c => isBlank c
  | comment, c => c = '#'
  | mark t, c => t.head? = some c
  | word t, c => t.head? = some c
  | digits, c => c.isDigit
  | identifier, c => c.isAlpha

/-- The text that a pattern asks for, if it asks for a certain one. -/
def literal : Pattern → List Char
  | mark t => t
  | word t => t
  | _ => []

theorem head?_of_isPrefix {t : List Char} (h : t <+: c :: s) (ht : 0 < t.length) : t.head? = some c := by
  obtain ⟨d, u, rfl⟩ := List.exists_cons_of_ne_nil (List.ne_nil_of_length_pos ht)
  rw [List.head?_cons, (List.cons_prefix_cons.mp h).1]

theorem opens_of_matchLength? (h : p.matchLength? (c :: s) = some n) : p.opens c := by
  have hrun : ∀ q : Char → Bool, nonempty ((c :: s).takeWhile q).length = some n → q c := fun q hq => by
    cases hc : q c with
    | true => rfl
    | false => simp [hc, nonempty] at hq
  cases p with
  | blanks => exact hrun _ h
  | digits => exact hrun _ h
  | comment =>
    obtain ⟨u, hu, -⟩ := comment_matchLength?_iff.mp h
    cases hu
    rfl
  | mark t =>
    obtain ⟨ht, rfl, hn⟩ := mark_matchLength?_iff.mp h
    exact decide_eq_true (head?_of_isPrefix ht hn)
  | word t =>
    obtain ⟨ht, -, rfl, hn⟩ := word_matchLength?_iff.mp h
    exact decide_eq_true (head?_of_isPrefix ht hn)
  | identifier =>
    obtain ⟨d, u, hu, hd, -⟩ := identifier_matchLength?_iff.mp h
    cases hu
    exact hd

theorem matchLength?_eq_none (h : p.opens c = false) : p.matchLength? (c :: s) = none := by
  rw [Option.eq_none_iff_forall_ne_some]
  intro n hn
  rw [opens_of_matchLength? hn] at h
  cases h

theorem not_isNameChar_of_endsWord (h : endsWord s) : ∀ c ∈ s.head?, Text.isNameChar c = false := fun c hc =>
  Text.not_isNameChar_of_not_isWordChar (endsWord_iff.mp h c hc)

/-- Of two words that stand at the same place and end there, one is the other. -/
theorem word_matchLength? {w x rest : List Char} (hw : ∀ c ∈ w, Text.isNameChar c) (hx : ∀ c ∈ x, Text.isNameChar c)
    (hr : ∀ c ∈ rest.head?, Text.isNameChar c = false) :
    (word w).matchLength? (x ++ rest) = if w = x ∧ endsWord rest then nonempty x.length else none := by
  simp only [matchLength?, Bool.and_eq_true, List.isPrefixOf_iff_prefix]
  by_cases h : w = x
  · subst h
    simp
  · have hno : ¬ (w <+: x ++ rest ∧ endsWord ((x ++ rest).drop w.length)) := by
      rintro ⟨hp, he⟩
      rcases List.prefix_or_prefix_of_prefix hp (List.prefix_append x rest) with ⟨y, rfl⟩ | ⟨y, rfl⟩
      -- The longer word goes on where the shorter one should have ended.
      · cases y with
        | nil => exact h (List.append_nil w).symm
        | cons d y =>
          have hd := Text.isWordChar_of_isNameChar (hx d (by simp))
          simp [endsWord, hd] at he
      · cases y with
        | nil => exact h (List.append_nil x)
        | cons d y =>
          obtain ⟨z, hz⟩ := hp
          rw [List.append_assoc, List.append_cancel_left_eq] at hz
          have hd := hr d (by rw [← hz]; rfl)
          rw [hw d (by simp)] at hd
          cases hd
    rw [if_neg hno, if_neg fun hh => h hh.1]

end Pattern

namespace Lexicon

variable {c : Char} {s : List Char} {n : Nat} {r : Rule}

/-- The first of these rules that matches at the start of a text, with the length of its match. -/
def firstOf? (l : List Rule) (s : List Char) : Option (Rule × Nat) :=
  l.findSome? fun r => (r.pattern.matchLength? s).map (r, ·)

theorem firstOf?_append {l l' : List Rule} : firstOf? (l ++ l') s = (firstOf? l s).or (firstOf? l' s) :=
  List.findSome?_append

theorem firstOf?_eq_none {l : List Rule} (h : ∀ r ∈ l, r.pattern.matchLength? s = none) : firstOf? l s = none := by
  refine List.findSome?_eq_none_iff.mpr fun r hr => ?_
  rw [h r hr]
  rfl

/-- A rule is the first to match if none that stands before it does. -/
theorem firstOf?_eq_some {l : List Rule} (hr : r ∈ l) (hm : r.pattern.matchLength? s = some n)
    (hb : ∀ r' ∈ l.takeWhile (· ≠ r), r'.pattern.matchLength? s = none) : firstOf? l s = some (r, n) := by
  induction l with
  | nil => cases hr
  | cons a l ih =>
    by_cases ha : a = r
    · simp [firstOf?, ha, hm]
    · have hnone := hb a (by simp [ha])
      rw [firstOf?, List.findSome?_cons, hnone]
      refine ih (List.mem_of_ne_of_mem (Ne.symm ha) hr) fun r' hr' => hb r' ?_
      rw [List.takeWhile_cons, if_pos (decide_eq_true ha)]
      exact List.mem_cons_of_mem a hr'

theorem mem_of_firstMatch? (h : firstMatch? s = some (r, n)) : r ∈ rules ∧ r.pattern.matchLength? s = some n := by
  obtain ⟨r', hr', h'⟩ := List.exists_of_findSome?_eq_some h
  obtain ⟨m, hm, he⟩ := Option.map_eq_some_iff.mp h'
  cases he
  exact ⟨hr', hm⟩

/-- The rules for blanks, comments and marks. -/
def markRules : List Rule :=
  [⟨.blanks, none⟩, ⟨.comment, none⟩] ++ marks.map fun t => ⟨.mark t.toList, some .reserved⟩

/-- The rules for reserved words. -/
def wordRules : List Rule := words.map fun t => ⟨.word t.toList, some .reserved⟩

/-- The rules for what is neither a mark nor reserved. -/
def openRules : List Rule := [⟨.digits, some .numeral⟩, ⟨.identifier, some .name⟩]

theorem rules_eq : rules = markRules ++ (wordRules ++ openRules) := by
  rw [← List.append_assoc]
  rfl

theorem firstMatch?_eq (s : List Char) :
    firstMatch? s = (firstOf? markRules s).or ((firstOf? wordRules s).or (firstOf? openRules s)) := by
  rw [← firstOf?_append, ← firstOf?_append, ← rules_eq]
  rfl

/-! ### Blanks, comments and marks -/

theorem firstMatch?_blank (hc : Pattern.isBlank c) :
    firstMatch? (c :: s) = some (⟨.blanks, none⟩, (s.takeWhile Pattern.isBlank).length + 1) := by
  have h : Pattern.blanks.matchLength? (c :: s) = some ((s.takeWhile Pattern.isBlank).length + 1) := by
    simp [Pattern.matchLength?, hc, Pattern.nonempty]
  simp only [firstMatch?, rules, List.cons_append, List.findSome?_cons, h, Option.map_some]

/-- A rule that stands before a mark, and may match where it does, is the one for the mark with an
    equals sign behind it. -/
theorem marks_ordered : ∀ t ∈ marks, ∀ r ∈ rules.takeWhile (· ≠ ⟨.mark t.toList, some .reserved⟩),
    t.toList.head?.any r.pattern.opens → r.pattern = .mark (t.toList ++ ['=']) := by
  decide

theorem marks_ne_nil : ∀ t ∈ marks, t.toList ≠ [] := by decide

theorem firstMatch?_mark {t : String} (ht : t ∈ marks) {rest : List Char} (hr : ∀ c ∈ rest.head?, c ≠ '=') :
    firstMatch? (t.toList ++ rest) = some (⟨.mark t.toList, some .reserved⟩, t.toList.length) := by
  obtain ⟨c, u, hcu⟩ := List.exists_cons_of_ne_nil (marks_ne_nil t ht)
  refine firstOf?_eq_some ?_ ?_ fun r hrule => ?_
  · simpa [rules] using ⟨t, ht, rfl⟩
  · exact Pattern.mark_matchLength?_iff.mpr ⟨List.prefix_append _ _, rfl, by rw [hcu]; exact Nat.succ_pos _⟩
  · cases ho : r.pattern.opens c with
    | false =>
      rw [hcu]
      exact Pattern.matchLength?_eq_none ho
    | true =>
      rw [marks_ordered t ht r hrule (by rw [hcu]; exact ho), Option.eq_none_iff_forall_ne_some]
      intro n hn
      obtain ⟨⟨v, hv⟩, -⟩ := Pattern.mark_matchLength?_iff.mp hn
      rw [List.append_assoc, List.append_cancel_left_eq] at hv
      exact hr '=' (by rw [← hv]; rfl) rfl

/-! ### Digits and words -/

theorem marks_open {t : String} (ht : t ∈ marks) (hc : t.toList.head? = some c) :
    c.isAlpha = false ∧ c.isDigit = false ∧ c.toNat < 0x80 := by
  have h : ∀ t ∈ marks, t.toList.head?.all fun c => !c.isAlpha && (!c.isDigit && decide (c.toNat < 0x80)) := by decide
  simpa [hc] using h t ht

theorem words_ne_nil : ∀ t ∈ words, t.toList ≠ [] := by decide

theorem words_open {t : String} (ht : t ∈ words) (hc : t.toList.head? = some c) : c.isAlpha := by
  have h : ∀ t ∈ words, t.toList.head?.all Char.isAlpha := by decide
  simpa [hc] using h t ht

theorem words_spell {t : String} (ht : t ∈ words) : ∀ c ∈ t.toList, Text.isNameChar c := by
  have h : ∀ t ∈ words, t.toList.all Text.isNameChar := by decide
  exact List.all_eq_true.mp (h t ht)

/-- Neither blanks nor a comment nor a mark begins with a letter or a digit. -/
theorem markRules_open (hr : r ∈ markRules) (ho : r.pattern.opens c) :
    c.isAlpha = false ∧ c.isDigit = false ∧ c.toNat < 0x80 := by
  simp only [markRules, List.cons_append, List.nil_append, List.mem_cons, List.mem_map] at hr
  rcases hr with rfl | rfl | ⟨t, ht, rfl⟩
  · simp only [Pattern.opens, Pattern.isBlank, Bool.or_eq_true, decide_eq_true_eq] at ho
    rcases ho with ((rfl | rfl) | rfl) | rfl <;> decide
  · obtain rfl := of_decide_eq_true ho
    decide
  · exact marks_open ht (of_decide_eq_true ho)

theorem wordRules_open (hr : r ∈ wordRules) (ho : r.pattern.opens c) : c.isAlpha := by
  obtain ⟨t, ht, rfl⟩ := List.mem_map.mp hr
  exact words_open ht (of_decide_eq_true ho)

theorem openRules_open (hr : r ∈ openRules) (ho : r.pattern.opens c) : c.isAlpha ∨ c.isDigit := by
  simp only [openRules, List.mem_cons, List.not_mem_nil, or_false] at hr
  rcases hr with rfl | rfl
  · exact Or.inr ho
  · exact Or.inl ho

/-- Letters and digits open the rules behind the marks. -/
theorem otherRules_open (hr : r ∈ wordRules ++ openRules) (ho : r.pattern.opens c) : c.isAlpha ∨ c.isDigit :=
  (List.mem_append.mp hr).elim (fun hr => Or.inl (wordRules_open hr ho)) fun hr => openRules_open hr ho

theorem firstOf?_marks_eq_none (hc : c.isAlpha ∨ c.isDigit) :
    firstOf? markRules (c :: s) = none := by
  refine firstOf?_eq_none fun r hr => Pattern.matchLength?_eq_none ?_
  rw [Bool.eq_false_iff]
  intro ho
  have hopen := markRules_open hr ho
  rcases hc with hc | hc
  · rw [hopen.1] at hc
    cases hc
  · rw [hopen.2.1] at hc
    cases hc

theorem firstMatch?_digits (hc : c.isDigit) :
    firstMatch? (c :: s) = some (⟨.digits, some .numeral⟩, (s.takeWhile Char.isDigit).length + 1) := by
  have hwords : firstOf? wordRules (c :: s) = none := by
    refine firstOf?_eq_none fun r hr => Pattern.matchLength?_eq_none ?_
    rw [Bool.eq_false_iff]
    intro ho
    rw [Text.not_isDigit_of_isAlpha (wordRules_open hr ho)] at hc
    cases hc
  rw [firstMatch?_eq, firstOf?_marks_eq_none (Or.inr hc), hwords]
  simp [firstOf?, openRules, Pattern.matchLength?, hc, Pattern.nonempty]

/-- At a letter the whole word decides. -/
theorem firstMatch?_word {x rest : List Char} (hc : c.isAlpha) (hx : ∀ d ∈ x, Text.isNameChar d)
    (hr : ∀ d ∈ rest.head?, Text.isNameChar d = false) : firstMatch? (c :: x ++ rest) =
      if String.ofList (c :: x) ∈ words ∧ Pattern.endsWord rest then
        some (⟨.word (c :: x), some .reserved⟩, (c :: x).length)
      else some (⟨.identifier, some .name⟩, (c :: x).length) := by
  have hname : ∀ d ∈ c :: x, Text.isNameChar d := fun d hd => by
    rcases List.mem_cons.mp hd with rfl | hd
    · exact Text.isNameChar_of_isAlpha hc
    · exact hx d hd
  have hmatch : ∀ t ∈ words, (Pattern.word t.toList).matchLength? (c :: x ++ rest) =
      if t.toList = c :: x ∧ Pattern.endsWord rest then some (c :: x).length else none := fun t ht => by
    rw [Pattern.word_matchLength? (words_spell ht) hname hr]
    rfl
  have hident : firstOf? openRules (c :: x ++ rest) =
      some (⟨.identifier, some .name⟩, (c :: x).length) := by
    have hd : c.isDigit = false := Text.not_isDigit_of_isAlpha hc
    simp [firstOf?, openRules, Pattern.matchLength?, hd, hc, takeWhile_append_of_head hx hr, Pattern.nonempty]
  have hmark : firstOf? markRules (c :: x ++ rest) = none := firstOf?_marks_eq_none (Or.inl hc)
  rw [firstMatch?_eq, hmark, Option.none_or, hident]
  split
  · next h =>
    have hword : firstOf? wordRules (c :: x ++ rest) =
        some (⟨.word (c :: x), some .reserved⟩, (c :: x).length) := by
      refine firstOf?_eq_some ?_ ?_ fun r hr => ?_
      · exact List.mem_map.mpr ⟨_, h.1, by rw [String.toList_ofList]⟩
      · have hm := hmatch _ h.1
        rwa [String.toList_ofList, if_pos ⟨rfl, h.2⟩] at hm
      · have hne := of_decide_eq_true (List.all_eq_true.mp List.all_takeWhile r hr)
        obtain ⟨t, ht, rfl⟩ := List.mem_map.mp ((List.takeWhile_sublist _).mem hr)
        rw [hmatch t ht, if_neg]
        rintro ⟨heq, -⟩
        exact hne (by rw [heq])
    rw [hword, Option.some_or]
  · next h =>
    have hnone : firstOf? wordRules (c :: x ++ rest) = none := by
      refine firstOf?_eq_none fun r hr => ?_
      obtain ⟨t, ht, rfl⟩ := List.mem_map.mp hr
      rw [hmatch t ht, if_neg]
      rintro ⟨heq, he⟩
      exact h ⟨by rw [← heq, String.ofList_toList]; exact ht, he⟩
    rw [hnone, Option.none_or]

/-! ### Beyond ASCII -/

theorem toNat_lt_of_opens (hr : r ∈ rules) (ho : r.pattern.opens c) : c.toNat < 0x80 := by
  rw [rules_eq] at hr
  rcases List.mem_append.mp hr with hr | hr
  · exact (markRules_open hr ho).2.2
  · rcases otherRules_open hr ho with ha | hd
    · exact Text.toNat_lt_of_isNameChar (Text.isNameChar_of_isAlpha ha)
    · exact Text.toNat_lt_of_isNameChar (Text.isNameChar_of_isDigit hd)

/-- No lexeme starts with a character beyond ASCII. -/
theorem firstMatch?_eq_none (hc : 0x80 ≤ c.toNat) : firstMatch? (c :: s) = none := by
  refine firstOf?_eq_none fun r hr => Pattern.matchLength?_eq_none ?_
  rw [Bool.eq_false_iff]
  exact fun ho => Nat.not_lt_of_le hc (toNat_lt_of_opens hr ho)

end Lexicon

end Imp
