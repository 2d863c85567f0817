import Imp.Proofs.Token.Matching

/-! # The order of the rules

The scanner takes the first rule that matches and not the longest match. The order of the table makes the two the
same: of two rules that may match at the same place, the one that stands first takes at least as much. Rules for
different first characters never do so. A mark stands behind the marks that it begins, and no mark or reserved word
begins a later one. A reserved word ends where an identifier does, so there the two rules take the same text. -/

namespace Imp

namespace Pattern

variable {p p' : Pattern} {s t : List Char} {n m : Nat}

/-- Where both patterns match, the first takes at least as much as the second. -/
def Covers (p p' : Pattern) : Prop :=
  ∀ s n m, p.matchLength? s = some n → p'.matchLength? s = some m → m ≤ n

/-- Patterns that do not begin with the same character never match at the same place. -/
theorem Covers.of_opens (h : ∀ c, p.opens c → p'.opens c = false) : p.Covers p' := by
  intro s n m hp hp'
  cases s with
  | nil =>
    obtain ⟨hpos, hle⟩ := matchLength?_bounds hp
    exact absurd hpos (Nat.not_lt_of_le hle)
  | cons c s =>
    have ho := opens_of_matchLength? hp'
    rw [h c (opens_of_matchLength? hp)] at ho
    cases ho

/-! ### Patterns for one text -/

/-- Of two texts at the same place, the one that does not begin the other is not the shorter one. -/
theorem length_le_of_not_isPrefix {u : List Char} (h : ¬ t <+: u) (ht : t <+: s) (hu : u <+: s) : u.length ≤ t.length :=
  ((List.prefix_or_prefix_of_prefix ht hu).resolve_left h).length_le

theorem Covers.mark_mark {u : List Char} (h : ¬ t <+: u) : (mark t).Covers (mark u) := by
  intro s n m hn hm
  obtain ⟨ht, rfl, -⟩ := mark_matchLength?_iff.mp hn
  obtain ⟨hu, rfl, -⟩ := mark_matchLength?_iff.mp hm
  exact length_le_of_not_isPrefix h ht hu

theorem Covers.word_word {u : List Char} (h : ¬ t <+: u) : (word t).Covers (word u) := by
  intro s n m hn hm
  obtain ⟨ht, -, rfl, -⟩ := word_matchLength?_iff.mp hn
  obtain ⟨hu, -, rfl, -⟩ := word_matchLength?_iff.mp hm
  exact length_le_of_not_isPrefix h ht hu

/-- Where a reserved word matches, the rule for identifiers takes the same text. -/
theorem identifier_matchLength?_of_word (ha : ∀ c ∈ t.head?, c.isAlpha) (ht : ∀ c ∈ t, Text.isNameChar c)
    (h : (word t).matchLength? s = some n) : identifier.matchLength? s = some n := by
  obtain ⟨⟨rest, rfl⟩, hend, rfl, hpos⟩ := word_matchLength?_iff.mp h
  rw [List.drop_left] at hend
  obtain ⟨c, u, rfl⟩ := List.exists_cons_of_ne_nil (List.ne_nil_of_length_pos hpos)
  have hrun : (u ++ rest).takeWhile Text.isNameChar = u :=
    takeWhile_append_of_head (List.forall_mem_cons.mp ht).2 (not_isNameChar_of_endsWord hend)
  exact identifier_matchLength?_iff.mpr ⟨c, u ++ rest, rfl, ha c rfl, by rw [hrun, List.length_cons]⟩

end Pattern

namespace Lexicon

open Pattern

variable {s : List Char} {r r' : Rule} {n m : Nat} {c : Char}

/-! ### The table -/

theorem marks_begin_no_later : marks.Pairwise fun t u => ¬ t.toList <+: u.toList := by decide

theorem words_begin_no_later : words.Pairwise fun t u => ¬ t.toList <+: u.toList := by decide

/-- No mark begins as a blank or a comment does. -/
theorem marks_open_otherwise {t : String} (ht : t ∈ marks) (hc : t.toList.head? = some c) : isBlank c = false ∧ c ≠ '#' := by
  have h : ∀ t ∈ marks, t.toList.head?.all fun c => !isBlank c && c != '#' := by decide
  simpa [hc] using h t ht

theorem markRules_ordered : markRules.Pairwise fun r r' => r.pattern.Covers r'.pattern := by
  refine .cons (fun r hr => .of_opens fun c hc => ?_) (.cons (fun r hr => .of_opens fun c hc => ?_) ?_)
  · rw [Bool.eq_false_iff]
    intro ho
    rcases List.mem_cons.mp hr with rfl | hr
    · obtain rfl := of_decide_eq_true ho
      cases hc
    · obtain ⟨t, ht, rfl⟩ := List.mem_map.mp hr
      exact Bool.eq_false_iff.mp (marks_open_otherwise ht (of_decide_eq_true ho)).1 hc
  · obtain ⟨t, ht, rfl⟩ := List.mem_map.mp hr
    exact decide_eq_false fun ho => (marks_open_otherwise ht ho).2 (of_decide_eq_true hc)
  · exact List.pairwise_map.mpr (marks_begin_no_later.imp .mark_mark)

theorem openRules_ordered : openRules.Pairwise fun r r' => r.pattern.Covers r'.pattern := by
  refine .cons (fun r hr => ?_) (.cons nofun .nil)
  obtain rfl := List.mem_singleton.mp hr
  exact .of_opens fun c hc => Text.not_isAlpha_of_isDigit hc

theorem wordRules_cover_openRules (hr : r ∈ wordRules) (hr' : r' ∈ openRules) : r.pattern.Covers r'.pattern := by
  obtain ⟨t, ht, rfl⟩ := List.mem_map.mp hr
  rcases List.mem_cons.mp hr' with rfl | hr'
  · exact .of_opens fun c hc => Text.not_isDigit_of_isAlpha (wordRules_open hr hc)
  · obtain rfl := List.mem_singleton.mp hr'
    intro s n m hn hm
    have hi := identifier_matchLength?_of_word (fun c hc => words_open ht hc) (words_spell ht) hn
    exact Nat.le_of_eq (Option.some.inj (hm.symm.trans hi))

/-- A rule takes at least as much as those that stand behind it. -/
theorem rules_ordered : rules.Pairwise fun r r' => r.pattern.Covers r'.pattern := by
  rw [rules_eq]
  refine List.pairwise_append.mpr ⟨markRules_ordered, List.pairwise_append.mpr ⟨?_, openRules_ordered,
    fun r hr r' hr' => wordRules_cover_openRules hr hr'⟩, fun r hr r' hr' => .of_opens fun c hc => ?_⟩
  · exact List.pairwise_map.mpr (words_begin_no_later.imp .word_word)
  · rw [Bool.eq_false_iff]
    intro ho
    have hopen := markRules_open hr hc
    rcases otherRules_open hr' ho with h | h
    · rw [hopen.1] at h
      cases h
    · rw [hopen.2.1] at h
      cases h

/-! ### First matches -/

theorem firstMatch?_eq_some_iff : firstMatch? s = some (r, n) ↔ r.pattern.matchLength? s = some n ∧
    ∃ before after, rules = before ++ r :: after ∧ ∀ r' ∈ before, r'.pattern.matchLength? s = none := by
  simp only [firstMatch?, List.findSome?_eq_some_iff, Option.map_eq_some_iff, Option.map_eq_none_iff]
  constructor
  · rintro ⟨before, r, after, hrules, ⟨k, hk, he⟩, hnone⟩
    cases he
    exact ⟨hk, before, after, hrules, hnone⟩
  · rintro ⟨hn, before, after, hrules, hnone⟩
    exact ⟨before, r, after, hrules, ⟨n, hn, rfl⟩, hnone⟩

theorem exists_firstMatch? (hr : r ∈ rules) (hm : r.pattern.matchLength? s = some m) :
    ∃ r' n, firstMatch? s = some (r', n) := by
  have hsome : (firstMatch? s).isSome := List.findSome?_isSome_iff.mpr ⟨r, hr, by rw [hm]; rfl⟩
  obtain ⟨⟨r', n⟩, h⟩ := Option.isSome_iff_exists.mp hsome
  exact ⟨r', n, h⟩

theorem le_of_firstMatch? (h : firstMatch? s = some (r, n)) (hr : r' ∈ rules) (hm : r'.pattern.matchLength? s = some m) :
    m ≤ n := by
  obtain ⟨hn, before, after, hrules, hnone⟩ := firstMatch?_eq_some_iff.mp h
  have hordered := rules_ordered
  rw [hrules] at hordered hr
  rcases List.mem_append.mp hr with hb | hr
  · rw [hnone r' hb] at hm
    cases hm
  · rcases List.mem_cons.mp hr with rfl | ha
    · exact Nat.le_of_eq (Option.some.inj (hm.symm.trans hn))
    · exact (List.pairwise_cons.mp (List.pairwise_append.mp hordered).2.1).1 r' ha s n m hn hm

/-- A reserved word that matches is the first to do so. -/
theorem firstMatch?_of_word {t : String} (ht : t ∈ words) (hm : (word t.toList).matchLength? s = some n) :
    firstMatch? s = some (⟨.word t.toList, some .reserved⟩, n) := by
  obtain ⟨⟨rest, rfl⟩, hend, rfl, -⟩ := word_matchLength?_iff.mp hm
  rw [List.drop_left] at hend
  obtain ⟨c, u, hcu⟩ := List.exists_cons_of_ne_nil (words_ne_nil t ht)
  have hspell := words_spell ht
  rw [hcu] at hspell
  have hfirst := firstMatch?_word (words_open ht (by rw [hcu]; rfl)) (List.forall_mem_cons.mp hspell).2
    (not_isNameChar_of_endsWord hend)
  rw [← hcu, String.ofList_toList, if_pos ⟨ht, hend⟩] at hfirst
  exact hfirst

/-- If any rule matches at the start of a text, the first one of the table that does takes at least as much as every
    other. Where a reserved word matches, the rule for identifiers takes as much, and the reserved word is first. -/
theorem firstMatch?_longest (s : List Char) :
    (∀ r ∈ rules, ∀ m, r.pattern.matchLength? s = some m → ∃ r' n, firstMatch? s = some (r', n)) ∧
    (∀ r n, firstMatch? s = some (r, n) →
      (r.pattern.matchLength? s = some n ∧
        ∃ before after, rules = before ++ r :: after ∧ ∀ r' ∈ before, r'.pattern.matchLength? s = none) ∧
      ∀ r' ∈ rules, ∀ m, r'.pattern.matchLength? s = some m → m ≤ n) ∧
    (∀ t ∈ words, ∀ n, (word t.toList).matchLength? s = some n →
      identifier.matchLength? s = some n ∧ firstMatch? s = some (⟨.word t.toList, some .reserved⟩, n)) := by
  refine ⟨fun r hr m hm => exists_firstMatch? hr hm, fun r n h => ⟨firstMatch?_eq_some_iff.mp h, fun r' hr m hm => ?_⟩,
    fun t ht n hm => ⟨?_, firstMatch?_of_word ht hm⟩⟩
  · exact le_of_firstMatch? h hr hm
  · exact identifier_matchLength?_of_word (fun c hc => words_open ht hc) (words_spell ht) hm

end Lexicon

end Imp
