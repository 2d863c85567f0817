import Imp.Proofs.Token.Matching
import Imp.Token.Cursor

/-! # Texts split into lexemes

What the tokens of a source text are, but for their places, is a relation between the text and their
texts and classes. The scanner succeeds exactly where it holds. Every token has a text that its class
may have: a reserved word is taken for a name only in front of a character beyond ASCII, and there the
scanner stops. The other way round, any text that a class may have is a lexeme in front of a character
at which every lexeme ends. -/

namespace Imp

namespace Lexicon

variable {s rest : List Char} {ks : List (String × Kind)} {n : Nat}

/-- The text consists of lexemes, and these are the texts and classes of their tokens. -/
inductive Splits : List Char → List (String × Kind) → Prop where
  | nil : Splits [] []
  | skip {s : List Char} {p : Pattern} {n : Nat} {ks : List (String × Kind)} :
      firstMatch? s = some (⟨p, none⟩, n) → Splits (s.drop n) ks → Splits s ks
  | token {s : List Char} {p : Pattern} {k : Kind} {n : Nat} {ks : List (String × Kind)} :
      firstMatch? s = some (⟨p, some k⟩, n) → Splits (s.drop n) ks → Splits s ((String.ofList (s.take n), k) :: ks)

/-! ### Texts of tokens -/

theorem Splits.toNat_lt {c : Char} (h : Splits (c :: s) ks) : c.toNat < 0x80 := by
  refine Nat.lt_of_not_le fun hc => ?_
  cases h with
  | skip hm _ | token hm _ =>
    rw [firstMatch?_eq_none hc] at hm
    cases hm

/-- What the rule for identifiers takes is a name, unless a character beyond ASCII follows. -/
theorem spells_name {c : Char} {u : List Char} (hc : c.isAlpha)
    (h : firstMatch? (c :: u) = some (⟨.identifier, some .name⟩, (u.takeWhile Text.isNameChar).length + 1)) :
    Kind.name.Spells (String.ofList (c :: u.takeWhile Text.isNameChar)) ∨
      ∃ d v, u.dropWhile Text.isNameChar = d :: v ∧ 0x80 ≤ d.toNat := by
  have hx : ∀ d ∈ u.takeWhile Text.isNameChar, Text.isNameChar d := List.all_eq_true.mp List.all_takeWhile
  have hrest : ∀ d ∈ (u.dropWhile Text.isNameChar).head?, Text.isNameChar d = false := fun d hd => by
    have := List.head?_dropWhile_not Text.isNameChar u
    rwa [hd] at this
  have hword := firstMatch?_word hc hx hrest
  rw [List.cons_append, List.takeWhile_append_dropWhile, h] at hword
  split at hword
  · cases hword
  · next hno =>
    by_cases hw : String.ofList (c :: u.takeWhile Text.isNameChar) ∈ words
    · -- It is a reserved word, and the rule for that was kept back by the next character.
      right
      cases hv : u.dropWhile Text.isNameChar with
      | nil => exact absurd ⟨hw, by rw [hv]; rfl⟩ hno
      | cons d v =>
        refine ⟨d, v, rfl, Text.le_toNat_of_isWordChar ?_ (by simp [hrest d (by rw [hv]; rfl)])⟩
        rw [← Bool.not_eq_false]
        exact fun hd => hno ⟨hw, by simp [hv, Pattern.endsWord, hd]⟩
    · exact Or.inl ⟨⟨c, _, String.toList_ofList, hc, hx⟩, hw⟩

theorem take_of_isPrefix {x : String} (h : x.toList <+: s) : String.ofList (s.take x.toList.length) = x := by
  rw [← List.prefix_iff_eq_take.mp h, String.ofList_toList]

/-- The rules that make tokens. -/
theorem cases_of_mem_rules {p : Pattern} {k : Kind} (h : ⟨p, some k⟩ ∈ rules) :
    (∃ t ∈ marks, p = .mark t.toList ∧ k = .reserved) ∨ (∃ t ∈ words, p = .word t.toList ∧ k = .reserved) ∨
      (p = .digits ∧ k = .numeral) ∨ (p = .identifier ∧ k = .name) := by
  rw [rules_eq, List.mem_append, List.mem_append] at h
  simpa only [markRules, wordRules, openRules, List.mem_append, List.mem_cons, List.mem_map, List.not_mem_nil, or_false,
    Rule.mk.injEq, reduceCtorEq, and_false, false_or, Option.some.injEq, @eq_comm _ _ p, @eq_comm _ _ k] using h

/-- A token has a text that its class may have, unless it is taken for a name and a character beyond
    ASCII follows. -/
theorem spells_of_firstMatch? {p : Pattern} {k : Kind} (h : firstMatch? s = some (⟨p, some k⟩, n)) :
    k.Spells (String.ofList (s.take n)) ∨ ∃ d u, s.drop n = d :: u ∧ 0x80 ≤ d.toNat := by
  obtain ⟨hr, hm⟩ := mem_of_firstMatch? h
  rcases cases_of_mem_rules hr with ⟨t, ht, rfl, rfl⟩ | ⟨t, ht, rfl, rfl⟩ | ⟨rfl, rfl⟩ | ⟨rfl, rfl⟩
  · obtain ⟨hp, rfl, -⟩ := Pattern.mark_matchLength?_iff.mp hm
    rw [take_of_isPrefix hp]
    exact Or.inl (List.mem_append_left words ht)
  · obtain ⟨hp, -, rfl, -⟩ := Pattern.word_matchLength?_iff.mp hm
    rw [take_of_isPrefix hp]
    exact Or.inl (List.mem_append_right marks ht)
  · obtain ⟨rfl, hpos⟩ := Pattern.nonempty_eq_some.mp hm
    rw [← List.prefix_iff_eq_take.mp (List.takeWhile_prefix Char.isDigit)]
    refine Or.inl ⟨fun hnil => List.ne_nil_of_length_pos hpos (String.ofList_eq_empty_iff.mp hnil), ?_⟩
    rw [String.toList_ofList]
    exact List.all_eq_true.mp List.all_takeWhile
  · obtain ⟨c, u, rfl, hc, rfl⟩ := Pattern.identifier_matchLength?_iff.mp hm
    have hsplit : c :: u = (c :: u.takeWhile Text.isNameChar) ++ u.dropWhile Text.isNameChar := by
      rw [List.cons_append, List.takeWhile_append_dropWhile]
    have hlen : (u.takeWhile Text.isNameChar).length + 1 = (c :: u.takeWhile Text.isNameChar).length := rfl
    have hname := spells_name hc h
    rwa [hlen, hsplit, List.take_left, List.drop_left]

theorem Splits.spells (h : Splits s ks) : ∀ k ∈ ks, k.2.Spells k.1 := by
  induction h with
  | nil => simp
  | skip _ _ ih => exact ih
  | token hm hs ih =>
    refine List.forall_mem_cons.mpr ⟨?_, ih⟩
    rcases spells_of_firstMatch? hm with h | ⟨d, u, hd, hle⟩
    · exact h
    · rw [hd] at hs
      exact absurd hle (Nat.not_le_of_lt hs.toNat_lt)

/-! ### Lexemes -/

/-- Every lexeme ends in front of the text. -/
def Separated (s : List Char) : Prop := ∀ c ∈ s.head?, Text.isWordChar c = false ∧ c ≠ '='

theorem Separated.endsWord (h : Separated rest) : Pattern.endsWord rest :=
  Pattern.endsWord_iff.mpr fun c hc => (h c hc).1

theorem Separated.not_isNameChar (h : Separated rest) : ∀ c ∈ rest.head?, Text.isNameChar c = false :=
  Pattern.not_isNameChar_of_endsWord h.endsWord

/-- A text that a class may have is a lexeme of that class. -/
theorem firstMatch?_of_spells {k : Kind} {x : String} (hx : k.Spells x) (hr : Separated rest) :
    ∃ p, firstMatch? (x.toList ++ rest) = some (⟨p, some k⟩, x.toList.length) := by
  have hword : ∀ {c u}, x.toList = c :: u → c.isAlpha → (∀ d ∈ u, Text.isNameChar d) →
      firstMatch? (x.toList ++ rest) = if x ∈ words then some (⟨.word x.toList, some .reserved⟩, x.toList.length)
        else some (⟨.identifier, some .name⟩, x.toList.length) := fun {c u} heq hc hu => by
    have h := firstMatch?_word hc hu hr.not_isNameChar
    rw [← heq, String.ofList_toList] at h
    simpa only [hr.endsWord, and_true] using h
  cases k with
  | reserved =>
    rcases List.mem_append.mp hx with ht | ht
    · exact ⟨_, firstMatch?_mark ht fun c hc => (hr c hc).2⟩
    · obtain ⟨c, u, heq⟩ := List.exists_cons_of_ne_nil (words_ne_nil x ht)
      refine ⟨_, (hword heq (words_open ht (by rw [heq]; rfl)) fun d hd => ?_).trans (if_pos ht)⟩
      exact words_spell ht d (by simp [heq, hd])
  | numeral =>
    obtain ⟨hne, hd⟩ := hx
    obtain ⟨c, u, heq⟩ := List.exists_cons_of_ne_nil (mt String.toList_eq_nil_iff.mp hne)
    rw [heq] at hd ⊢
    have hrun : (u ++ rest).takeWhile Char.isDigit = u := by
      refine takeWhile_append_of_head (fun d hu => hd d (List.mem_cons_of_mem c hu)) fun d hdr => ?_
      rw [Bool.eq_false_iff]
      intro hdd
      have hn := hr.not_isNameChar d hdr
      rw [Text.isNameChar_of_isDigit hdd] at hn
      cases hn
    have hm := firstMatch?_digits (s := u ++ rest) (hd c List.mem_cons_self)
    rw [hrun] at hm
    exact ⟨_, hm⟩
  | name =>
    obtain ⟨⟨c, u, heq, hc, hu⟩, hw⟩ := hx
    exact ⟨_, (hword heq hc hu).trans (if_neg hw)⟩

theorem Splits.lexeme {k : Kind} {x : String} (hx : k.Spells x) (hr : Separated rest) (h : Splits rest ks) :
    Splits (x.toList ++ rest) ((x, k) :: ks) := by
  obtain ⟨p, hm⟩ := firstMatch?_of_spells hx hr
  have hs := Splits.token hm (by rwa [List.drop_left])
  rwa [List.take_left, String.ofList_toList] at hs

theorem Splits.blank {c : Char} (hc : Pattern.isBlank c) (h : Splits s ks) : Splits (c :: s) ks := by
  refine .skip (firstMatch?_blank hc) ?_
  rw [List.drop_succ_cons]
  cases s with
  | nil => exact h
  | cons d u =>
    cases hd : Pattern.isBlank d with
    | false => simpa [hd] using h
    | true =>
      -- The text begins with a gap of its own, which is now a part of the longer one.
      have hlen : ((d :: u).takeWhile Pattern.isBlank).length = (u.takeWhile Pattern.isBlank).length + 1 := by simp [hd]
      rw [hlen]
      cases h with
      | skip hm hs =>
        rw [firstMatch?_blank hd] at hm
        cases hm
        exact hs
      | token hm _ =>
        rw [firstMatch?_blank hd] at hm
        cases hm

end Lexicon

/-! ### The scanner -/

namespace Cursor

open Lexicon

theorem readFrom_of_nil {c : Cursor} (h : c.rest = []) (before : Array Token) : c.readFrom before = (.ok before, c) := by
  rw [readFrom]
  split
  · rfl
  · next heq =>
    rw [h] at heq
    cases heq

theorem readFrom_of_step {c d : Cursor} {t : Option Token} (h : c.step? = some (t, d)) (before : Array Token) :
    c.readFrom before = d.readFrom (t.elim before before.push) := by
  have hlt := step?_length_lt h
  rw [readFrom]
  split
  · next heq => simp [heq] at hlt
  · split
    · next hnone =>
      rw [h] at hnone
      cases hnone
    · next hsome =>
      rw [h] at hsome
      cases hsome
      rfl

theorem readFrom_of_stuck {c : Cursor} {x : Char} {s : List Char} (hc : c.rest = x :: s) (h : c.step? = none)
    (before : Array Token) : c.readFrom before = (.error (.illegalCharacter x c.place), c) := by
  rw [readFrom]
  split
  · next heq =>
    rw [hc] at heq
    cases heq
  · next heq =>
    rw [hc] at heq
    cases heq
    split
    · rfl
    · next hsome =>
      rw [h] at hsome
      cases hsome

/-- The tokens that are read have the texts and classes of the lexemes. -/
theorem readFrom_of_splits {ks : List (String × Kind)} {c : Cursor} (h : Splits c.rest ks) (before : Array Token) :
    ∃ ts, (c.readFrom before).1 = .ok ts ∧ ts.toList.map Token.key = before.toList.map Token.key ++ ks := by
  generalize hs : c.rest = s at h
  induction h generalizing c before with
  | nil => exact ⟨before, by rw [readFrom_of_nil hs], (List.append_nil _).symm⟩
  | @skip s p n ks hm _ ih =>
    subst hs
    have hstep : c.step? = some (none, c.advance n) := by rw [step?, hm]; rfl
    rw [readFrom_of_step hstep]
    exact ih before rfl
  | @token s p k n ks hm _ ih =>
    subst hs
    have hstep : c.step? = some (some ⟨String.ofList (c.rest.take n), k, c.place⟩, c.advance n) := by rw [step?, hm]; rfl
    rw [readFrom_of_step hstep]
    obtain ⟨ts, hts, hkeys⟩ := ih (c := c.advance n) (before.push ⟨String.ofList (c.rest.take n), k, c.place⟩) rfl
    exact ⟨ts, hts, by rw [hkeys]; simp [Token.key]⟩

/-- A text that is read to its end consists of lexemes. -/
theorem splits_of_readFrom {c : Cursor} {before ts : Array Token} (h : (c.readFrom before).1 = .ok ts) :
    ∃ ks, Splits c.rest ks := by
  cases hc : c.rest with
  | nil => exact ⟨[], .nil⟩
  | cons x s =>
    match hstep : c.step? with
    | none =>
      rw [readFrom_of_stuck hc hstep] at h
      cases h
    | some (t, d) =>
      have hlt := step?_length_lt hstep
      rw [readFrom_of_step hstep] at h
      obtain ⟨ks, hks⟩ := splits_of_readFrom h
      obtain ⟨⟨⟨p, k⟩, n⟩, hm, he⟩ := Option.map_eq_some_iff.mp hstep
      cases he
      rw [hc] at hm
      rw [advance, hc] at hks
      cases k with
      | none => exact ⟨ks, .skip hm hks⟩
      | some k => exact ⟨_, .token hm hks⟩
termination_by c.rest.length

end Cursor

/-- The tokens of a source text are its lexemes with places. -/
theorem tokenize_iff {source : String} {ks : List (String × Kind)} :
    (∃ ts, tokenize source = .ok ts ∧ ts.toList.map Token.key = ks) ↔ Lexicon.Splits source.toList ks := by
  constructor
  · rintro ⟨ts, hts, rfl⟩
    obtain ⟨ks, hks⟩ := Cursor.splits_of_readFrom hts
    obtain ⟨us, hus, hkeys⟩ := Cursor.readFrom_of_splits (c := Cursor.ofString source) hks #[]
    rw [tokenize, Cursor.read, hus] at hts
    cases hts
    rw [hkeys]
    exact hks
  · intro h
    exact Cursor.readFrom_of_splits (c := Cursor.ofString source) h #[]

/-- Every token of a source text has a text that its class may have. -/
theorem spells_of_tokenize {source : String} {ts : Array Token} (h : tokenize source = .ok ts) :
    ∀ t ∈ ts.toList, t.kind.Spells t.text := fun t ht =>
  (tokenize_iff.mp ⟨ts, h, rfl⟩).spells t.key (List.mem_map_of_mem ht)

end Imp
