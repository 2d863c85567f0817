import Imp.Proofs.Token.Places

/-! # Texts joined by a newline

No lexeme but a run of blanks goes on beyond a newline. So in front of a newline a text has the lexemes
that it has by itself, and those of what stands behind come after them, in the same columns and as many
lines further down as the first text has. Only the blanks around the newline are read otherwise, as one
run: that makes no difference, since to read on from within a run of blanks is to read on from its start. -/

namespace Imp

theorem takeWhile_append_of_stop {q : Char → Bool} {c : Char} (hc : q c = false) (s r : List Char) :
    (s ++ c :: r).takeWhile q = s.takeWhile q := by
  induction s with
  | nil => simp [hc]
  | cons d s ih => simp only [List.cons_append, List.takeWhile_cons, ih]

theorem isPrefixOf_append_of_stop {t : List Char} {c : Char} (hc : c ∉ t) (s r : List Char) :
    t.isPrefixOf (s ++ c :: r) = t.isPrefixOf s := by
  induction t generalizing s with
  | nil => simp
  | cons d t ih =>
    have hd : d ≠ c := fun h => hc (h ▸ List.mem_cons_self)
    have ht : c ∉ t := fun h => hc (List.mem_cons_of_mem d h)
    cases s with
    | nil => simp [List.isPrefixOf, hd]
    | cons x s => simp only [List.cons_append, List.isPrefixOf, ih ht]

namespace Pattern

theorem endsWord_append_newline (s r : List Char) : endsWord (s ++ '\n' :: r) = endsWord s := by
  cases s with
  | nil => rfl
  | cons c s => rfl

theorem matchLength?_append_newline {p : Pattern} (hp : '\n' ∉ p.literal) {c : Char} (hc : isBlank c = false)
    (s r : List Char) : p.matchLength? (c :: s ++ '\n' :: r) = p.matchLength? (c :: s) := by
  cases p with
  | blanks => simp [matchLength?, hc]
  | digits =>
    simp only [matchLength?]
    rw [takeWhile_append_of_stop (by decide)]
  | comment =>
    by_cases hx : c = '#'
    · subst hx
      simp only [matchLength?, List.cons_append]
      rw [takeWhile_append_of_stop (by decide)]
    · simp [matchLength?, hx]
  | identifier =>
    simp only [matchLength?, List.cons_append]
    rw [takeWhile_append_of_stop (by decide)]
  | mark t =>
    have hpre : t.isPrefixOf (c :: s ++ '\n' :: r) = t.isPrefixOf (c :: s) := isPrefixOf_append_of_stop hp _ _
    simp only [matchLength?, hpre]
  | word t =>
    have hpre : t.isPrefixOf (c :: s ++ '\n' :: r) = t.isPrefixOf (c :: s) := isPrefixOf_append_of_stop hp _ _
    simp only [matchLength?, hpre]
    cases hpre : t.isPrefixOf (c :: s) with
    | false => rfl
    | true =>
      have hle : t.length ≤ (c :: s).length := (List.isPrefixOf_iff_prefix.mp hpre).length_le
      rw [List.drop_append_of_le_length hle, endsWord_append_newline]

end Pattern

namespace Lexicon

variable {s r : List Char} {ks us : List (String × Kind)}

theorem newline_not_mem_literal : ∀ r ∈ rules, '\n' ∉ r.pattern.literal := by decide

theorem firstOf?_congr {l : List Rule} (h : ∀ rule ∈ l, rule.pattern.matchLength? s = rule.pattern.matchLength? r) :
    firstOf? l s = firstOf? l r := by
  induction l with
  | nil => rfl
  | cons rule l ih =>
    obtain ⟨hrule, hl⟩ := List.forall_mem_cons.mp h
    have hrest := ih hl
    simp only [firstOf?, List.findSome?_cons] at hrest ⊢
    rw [hrule, hrest]

theorem firstMatch?_cons_append_newline {c : Char} (hc : Pattern.isBlank c = false) (r : List Char) :
    firstMatch? (c :: s ++ '\n' :: r) = firstMatch? (c :: s) :=
  firstOf?_congr fun rule hrule => Pattern.matchLength?_append_newline (newline_not_mem_literal rule hrule) hc s r

/-- Every lexeme but blanks is the same in front of a newline. -/
theorem firstMatch?_append_newline {rule : Rule} {n : Nat} (hm : firstMatch? s = some (rule, n)) (r : List Char) :
    (rule = ⟨.blanks, none⟩ ∧ ∀ c ∈ s.take n, Pattern.isBlank c) ∨ firstMatch? (s ++ '\n' :: r) = some (rule, n) := by
  cases s with
  | nil => cases hm
  | cons c s =>
    cases hc : Pattern.isBlank c with
    | true =>
      rw [firstMatch?_blank hc] at hm
      cases hm
      refine Or.inl ⟨rfl, ?_⟩
      rw [List.take_succ_cons, ← takeWhile_eq_take]
      exact List.forall_mem_cons.mpr ⟨hc, fun d hd => List.mem_takeWhile_imp hd⟩
    | false => exact Or.inr ((firstMatch?_cons_append_newline hc r).trans hm)

theorem Splits.blanks {b : List Char} (hb : ∀ c ∈ b, Pattern.isBlank c) (h : Splits s ks) : Splits (b ++ s) ks := by
  induction b with
  | nil => exact h
  | cons c b ih =>
    obtain ⟨hc, hb⟩ := List.forall_mem_cons.mp hb
    exact .blank hc (ih hb)

/-- Texts with a newline between them split one after the other. -/
theorem Splits.append_newline (hs : Splits s ks) (hr : Splits ('\n' :: r) us) : Splits (s ++ '\n' :: r) (ks ++ us) := by
  induction hs with
  | nil => exact hr
  | @skip s p n ks hm _ ih =>
    rcases firstMatch?_append_newline hm r with ⟨-, hb⟩ | hm'
    · -- The run may go on beyond the newline, so its blanks are put in front one by one.
      rw [← List.take_append_drop n s, List.append_assoc]
      exact .blanks hb ih
    · refine .skip hm' ?_
      rwa [List.drop_append_of_le_length (firstMatch?_bounds hm).2]
  | @token s p k n ks hm _ ih =>
    rcases firstMatch?_append_newline hm r with ⟨hp, -⟩ | hm'
    · cases hp
    · have hle := (firstMatch?_bounds hm).2
      have htoken := Splits.token hm' (by rwa [List.drop_append_of_le_length hle])
      rwa [List.take_append_of_le_length hle] at htoken

end Lexicon

namespace Cursor

open Lexicon

variable {c d : Cursor} {ts : List Token} {x : Char} {s b : List Char} {p : Place}

/-! ### Blanks -/

theorem step?_blank (hx : Pattern.isBlank x) :
    step? ⟨x :: s, p⟩ = some (none, advance ⟨s, p.next x⟩ (s.takeWhile Pattern.isBlank).length) := by
  rw [step?, firstMatch?_blank hx]
  rfl

theorem readFrom_blank (hx : Pattern.isBlank x) (before : Array Token) :
    readFrom ⟨x :: s, p⟩ before = readFrom ⟨s, p.next x⟩ before := by
  rw [readFrom_of_step (step?_blank hx)]
  cases s with
  | nil => rfl
  | cons y s =>
    cases hy : Pattern.isBlank y with
    | false =>
      rw [List.takeWhile_cons_of_neg (by simp [hy])]
      rfl
    | true =>
      -- The run that begins at `y` ends where the one that begins at `x` does.
      rw [List.takeWhile_cons_of_pos hy, readFrom_of_step (step?_blank hy)]
      rfl

theorem readFrom_blanks (hb : ∀ y ∈ b, Pattern.isBlank y) (before : Array Token) :
    readFrom ⟨b ++ s, p⟩ before = readFrom ⟨s, p.after b⟩ before := by
  induction b generalizing p with
  | nil => rfl
  | cons y b ih =>
    obtain ⟨hy, hb⟩ := List.forall_mem_cons.mp hb
    rw [List.cons_append, readFrom_blank hy, ih hb, Place.after_cons]

/-! ### A newline and a text behind it -/

/-- The cursor, with a newline and a further text behind the text that is left. -/
def above (c : Cursor) (r : List Char) : Cursor := ⟨c.rest ++ '\n' :: r, c.place⟩

theorem step?_of_firstMatch?_above {rule : Rule} {n : Nat} {r : List Char} (hn : n ≤ c.rest.length)
    (hm : firstMatch? (c.rest ++ '\n' :: r) = some (rule, n)) :
    (c.above r).step? = some (c.token? rule n, (c.advance n).above r) := by
  refine step?_eq_some_iff.mpr ⟨rule, n, hm, ?_, ?_⟩
  · rw [token?, token?, above, List.take_append_of_le_length hn]
  · rw [above, advance, above, advance, List.take_append_of_le_length hn, List.drop_append_of_le_length hn]

/-- A step is the same in front of a newline, unless it skips blanks. -/
theorem step?_above {t : Option Token} (h : c.step? = some (t, d)) (r : List Char) :
    (t = none ∧ ∃ b, (∀ y ∈ b, Pattern.isBlank y) ∧ c.rest = b ++ d.rest ∧ d.place = c.place.after b) ∨
      (c.above r).step? = some (t, d.above r) := by
  obtain ⟨rule, n, hm, rfl, rfl⟩ := step?_eq_some_iff.mp h
  rcases firstMatch?_append_newline hm r with ⟨rfl, hb⟩ | hm'
  · obtain ⟨hrest, hplace, -, -⟩ := rest_eq_of_match hm
    exact Or.inl ⟨rfl, _, hb, hrest, hplace⟩
  · exact Or.inr (step?_of_firstMatch?_above (firstMatch?_bounds hm).2 hm')

theorem step?_above_eq_none (h : c.step? = none) (hc : c.rest = x :: s) (r : List Char) : (c.above r).step? = none := by
  rw [step?, Option.map_eq_none_iff, hc] at h
  have hx : Pattern.isBlank x = false := by
    rw [Bool.eq_false_iff]
    intro hx
    rw [firstMatch?_blank hx] at h
    cases h
  rw [step?, Option.map_eq_none_iff, above, hc]
  exact (firstMatch?_cons_append_newline hx r).trans h

/-- The tokens in front of a newline are read as they are without it. -/
theorem Passes.readFrom_above (h : Passes c ts d) (r : List Char) (before : Array Token) :
    (c.above r).readFrom before = (d.above r).readFrom (before ++ ts.toArray) := by
  induction h generalizing before with
  | here => simp
  | @skip c d _ _ hs _ ih =>
    refine Eq.trans ?_ (ih before)
    rcases step?_above hs r with ⟨-, b, hb, hrest, hplace⟩ | hs'
    · rw [above, hrest, List.append_assoc, readFrom_blanks hb, ← hplace]
      rfl
    · exact readFrom_of_step hs' before
  | token hs _ ih =>
    rcases step?_above hs r with ⟨hnone, -⟩ | hs'
    · cases hnone
    · rw [readFrom_of_step hs', ih]
      simp

/-! ### Further down -/

/-- The cursor in the same text, which begins `n` lines further down. -/
def below (n : Nat) (c : Cursor) : Cursor := ⟨c.rest, c.place.below n⟩

theorem step?_below {t : Option Token} (h : c.step? = some (t, d)) (n : Nat) :
    (c.below n).step? = some (t.map (Token.below n), d.below n) := by
  obtain ⟨rule, m, hm, rfl, rfl⟩ := step?_eq_some_iff.mp h
  refine step?_eq_some_iff.mpr ⟨rule, m, hm, ?_, ?_⟩
  · rw [token?, token?, Option.map_map]
    rfl
  · rw [below, advance, advance, below, Place.after_below]

theorem step?_below_eq_none (h : c.step? = none) (n : Nat) : (c.below n).step? = none := by
  rw [step?, Option.map_eq_none_iff] at h ⊢
  exact h

theorem passes_below (h : Passes c ts d) (n : Nat) : Passes (c.below n) (ts.map (Token.below n)) (d.below n) := by
  induction h with
  | here => exact .here
  | skip hs _ ih => exact .skip (step?_below hs n) ih
  | token hs _ ih => exact .token (step?_below hs n) ih

/-- Further down a text has the same tokens further down, and the same illegal character. -/
theorem readFrom_below (source : String) (n : Nat) (before : Array Token) :
    (((ofString source).below n).readFrom before).1 =
      ((tokenize source).mapError (Error.below n)).map (before ++ ·.map (Token.below n)) := by
  obtain ⟨ts, d, hp, hd⟩ := exists_passes (.ofString source)
  rw [(passes_below hp n).readFrom]
  cases hrest : d.rest with
  | nil =>
    have hok : tokenize source = .ok ts.toArray := by rw [tokenize, hp.read_of_nil hrest]
    rw [hok, readFrom_of_nil (by exact hrest), ← List.map_toArray]
    rfl
  | cons y v =>
    have herr : tokenize source = .error (.illegalCharacter y d.place) := by
      rw [tokenize, hp.read_of_stuck hd hrest]
    rw [herr, readFrom_of_stuck (by exact hrest) (step?_below_eq_none hd n)]
    rfl

end Cursor

theorem Place.next_newline_after_origin (u : List Char) :
    (origin.after u).next '\n' = origin.below (1 + u.count '\n') := by
  rw [after_origin]
  simp [behind, next, below, origin, Nat.add_comm]

/-- The tokens of two texts with a newline between them are those of the first and, in the same columns but below
    the lines of the first, those of the second. Where the first text is not read, nor is the whole, for the same
    reason; where the second is not, its illegal character is reported below the lines of the first. -/
theorem tokenize_append_newline (a b : String) :
    tokenize (a ++ "\n" ++ b) = (do
      let ts ← tokenize a
      let us ← (tokenize b).mapError (Error.below (1 + a.toList.count '\n'))
      return ts ++ us.map (Token.below (1 + a.toList.count '\n'))) := by
  obtain ⟨ts, c, hp, hc⟩ := Cursor.exists_passes (.ofString a)
  have hjoined : Cursor.ofString (a ++ "\n" ++ b) = (Cursor.ofString a).above b.toList := by
    simp [Cursor.ofString, Cursor.above]
  have hread : tokenize (a ++ "\n" ++ b) = ((c.above b.toList).readFrom ts.toArray).1 := by
    rw [tokenize, Cursor.read, hjoined, hp.readFrom_above]
    simp
  cases hrest : c.rest with
  | cons x s =>
    have herr : tokenize a = .error (.illegalCharacter x c.place) := by
      rw [tokenize, hp.read_of_stuck hc hrest]
    have hstuck := Cursor.step?_above_eq_none hc hrest b.toList
    rw [hread, herr, Cursor.readFrom_of_stuck (by rw [Cursor.above, hrest]; rfl) hstuck]
    rfl
  | nil =>
    have hok : tokenize a = .ok ts.toArray := by rw [tokenize, hp.read_of_nil hrest]
    obtain ⟨u, hu, hplace⟩ := hp.rest_eq
    have hsource : a.toList = u := by rwa [hrest, List.append_nil] at hu
    have hplace' : c.place.next '\n' = Place.origin.below (1 + a.toList.count '\n') := by
      rw [hplace, hsource]
      exact Place.next_newline_after_origin u
    -- Behind the newline the second text is read from its start, below the lines of the first.
    have hbelow : (c.above b.toList).readFrom ts.toArray =
        ((Cursor.ofString b).below (1 + a.toList.count '\n')).readFrom ts.toArray := by
      rw [Cursor.above, hrest, List.nil_append, Cursor.readFrom_blank (by decide), hplace']
      rfl
    rw [hread, hbelow, hok, Cursor.readFrom_below]
    cases tokenize b <;> rfl

end Imp
