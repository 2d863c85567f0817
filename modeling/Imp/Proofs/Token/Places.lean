import Imp.Proofs.Token.Splitting
import Mathlib.Data.List.TakeWhile

/-! # What the scanner has read

The scanner goes from lexeme to lexeme until no rule matches. What it has passed by then is laid out as
tokens with gaps between them, and every token is at its place. A comment and the newline behind it are
two lexemes but one piece of a gap, so a comment that has just been read stays open until it is known
what follows: a newline, which belongs to the same gap, or the end of the text. -/

namespace Imp

/-! ### Single lexemes -/

theorem takeWhile_eq_take (q : Char → Bool) (s : List Char) : s.takeWhile q = s.take (s.takeWhile q).length :=
  List.prefix_iff_eq_take.mp (List.takeWhile_prefix q)

theorem dropWhile_eq_drop (q : Char → Bool) (s : List Char) : s.dropWhile q = s.drop (s.takeWhile q).length := by
  have h := List.take_append_drop (s.takeWhile q).length s
  rw [← takeWhile_eq_take] at h
  exact List.append_cancel_left (List.takeWhile_append_dropWhile.trans h.symm)

/-- What is skipped is a run of blanks, or a comment up to the end of its line. -/
theorem Lexicon.skipped_of_firstMatch? {p : Pattern} {s : List Char} {n : Nat} (h : firstMatch? s = some (⟨p, none⟩, n)) :
    (∀ c ∈ s.take n, Pattern.isBlank c) ∨
      ∃ cs, s.take n = '#' :: cs ∧ '\n' ∉ cs ∧ ∀ c ∈ (s.drop n).head?, c = '\n' := by
  obtain ⟨hr, hm⟩ := mem_of_firstMatch? h
  simp only [rules, List.mem_append, List.mem_cons, List.mem_map, List.not_mem_nil, or_false, Rule.mk.injEq,
    reduceCtorEq, and_false, exists_false, and_true] at hr
  rcases hr with rfl | rfl
  · obtain ⟨rfl, -⟩ := Pattern.nonempty_eq_some.mp hm
    rw [← takeWhile_eq_take]
    exact Or.inl fun c hc => List.mem_takeWhile_imp hc
  · obtain ⟨u, rfl, rfl⟩ := Pattern.comment_matchLength?_iff.mp hm
    refine Or.inr ⟨u.takeWhile (· ≠ '\n'), ?_, fun hmem => ?_, fun c hc => ?_⟩
    · rw [List.take_succ_cons, ← takeWhile_eq_take]
    · simpa using List.mem_takeWhile_imp hmem
    · rw [List.drop_succ_cons, ← dropWhile_eq_drop] at hc
      have := List.head?_dropWhile_not (· ≠ '\n') u
      rw [hc] at this
      simpa using this

/-- What a pattern takes, it takes as well if nothing follows. -/
theorem Pattern.matchLength?_take {p : Pattern} {s : List Char} {n : Nat} (h : p.matchLength? s = some n) :
    p.matchLength? (s.take n) = some n := by
  -- A run of characters is all that is left of the text that was cut off behind it.
  have hrun : ∀ q : Char → Bool, nonempty (s.takeWhile q).length = some n →
      nonempty ((s.take n).takeWhile q).length = some n := by
    intro q hq
    obtain ⟨rfl, -⟩ := nonempty_eq_some.mp hq
    rwa [← takeWhile_eq_take, List.takeWhile_idem]
  cases p with
  | blanks => exact hrun _ h
  | digits => exact hrun _ h
  | comment =>
    obtain ⟨u, rfl, rfl⟩ := comment_matchLength?_iff.mp h
    rw [List.take_succ_cons, ← takeWhile_eq_take]
    exact comment_matchLength?_iff.mpr ⟨_, rfl, by rw [List.takeWhile_idem]⟩
  | mark t =>
    obtain ⟨ht, rfl, hn⟩ := mark_matchLength?_iff.mp h
    rw [← List.prefix_iff_eq_take.mp ht]
    exact mark_matchLength?_iff.mpr ⟨List.prefix_rfl, rfl, hn⟩
  | word t =>
    obtain ⟨ht, -, rfl, hn⟩ := word_matchLength?_iff.mp h
    rw [← List.prefix_iff_eq_take.mp ht]
    exact word_matchLength?_iff.mpr ⟨List.prefix_rfl, by rw [List.drop_length]; rfl, rfl, hn⟩
  | identifier =>
    obtain ⟨c, u, rfl, hc, rfl⟩ := identifier_matchLength?_iff.mp h
    rw [List.take_succ_cons, ← takeWhile_eq_take]
    exact identifier_matchLength?_iff.mpr ⟨c, _, rfl, hc, by rw [List.takeWhile_idem]⟩

theorem Place.behind_append (before u : List Char) : Place.behind (before ++ u) = (Place.behind before).after u := by
  rw [← after_origin, ← after_origin, after_append]

namespace Cursor

open Lexicon

variable {c d : Cursor} {ts : List Token}

/-! ### Steps -/

theorem step?_eq_some_iff {t : Option Token} : c.step? = some (t, d) ↔
    ∃ r n, firstMatch? c.rest = some (r, n) ∧ t = c.token? r n ∧ d = c.advance n := by
  constructor
  · intro h
    obtain ⟨⟨r, n⟩, hm, he⟩ := Option.map_eq_some_iff.mp h
    cases he
    exact ⟨r, n, hm, rfl, rfl⟩
  · rintro ⟨r, n, hm, rfl, rfl⟩
    rw [step?, hm]
    rfl

theorem step?_eq_none_iff : c.step? = none ↔ ∀ r ∈ rules, r.pattern.matchLength? c.rest = none := by
  rw [step?, Option.map_eq_none_iff, firstMatch?, List.findSome?_eq_none_iff]
  simp only [Option.map_eq_none_iff]

theorem rest_eq_of_match {r : Rule} {n : Nat} (h : firstMatch? c.rest = some (r, n)) :
    c.rest = c.rest.take n ++ (c.advance n).rest ∧ (c.advance n).place = c.place.after (c.rest.take n) ∧
      (c.rest.take n).length = n ∧ 0 < n := by
  obtain ⟨hpos, hle⟩ := firstMatch?_bounds h
  exact ⟨(List.take_append_drop n c.rest).symm, rfl, List.length_take_of_le hle, hpos⟩

theorem step?_token {t : Token} (h : c.step? = some (some t, d)) :
    c.rest = t.text.toList ++ d.rest ∧ d.place = c.place.after t.text.toList ∧ t.place = c.place ∧ t.IsLexeme := by
  obtain ⟨⟨p, k⟩, n, hm, ht, rfl⟩ := step?_eq_some_iff.mp h
  obtain ⟨hrest, hplace, hlen, -⟩ := rest_eq_of_match hm
  obtain ⟨hr, hlength⟩ := mem_of_firstMatch? hm
  cases k with
  | none => cases ht
  | some k =>
    cases ht
    dsimp only
    rw [String.toList_ofList]
    refine ⟨hrest, hplace, rfl, _, hr, rfl, ?_⟩
    dsimp only
    rw [String.toList_ofList, hlen]
    exact Pattern.matchLength?_take hlength

theorem step?_skip (h : c.step? = some (none, d)) : ∃ w, c.rest = w ++ d.rest ∧ d.place = c.place.after w ∧
    ((w ≠ [] ∧ ∀ x ∈ w, Pattern.isBlank x) ∨ ∃ cs, w = '#' :: cs ∧ '\n' ∉ cs ∧ ∀ x ∈ d.rest.head?, x = '\n') := by
  obtain ⟨⟨p, k⟩, n, hm, ht, rfl⟩ := step?_eq_some_iff.mp h
  obtain ⟨hrest, hplace, hlen, hpos⟩ := rest_eq_of_match hm
  cases k with
  | some k => cases ht
  | none =>
    refine ⟨c.rest.take n, hrest, hplace, ?_⟩
    rcases skipped_of_firstMatch? hm with hb | hcomment
    · exact Or.inl ⟨List.ne_nil_of_length_pos (by omega), hb⟩
    · exact Or.inr hcomment

/-- No token begins with a newline. -/
theorem rest_ne_newline {t : Token} (h : c.step? = some (some t, d)) (u : List Char) : c.rest ≠ '\n' :: u := by
  intro hu
  rw [step?, hu, firstMatch?_blank (by decide)] at h
  cases h

theorem rest_ne_nil {t : Option Token} (h : c.step? = some (t, d)) : c.rest ≠ [] := by
  intro hnil
  have := step?_length_lt h
  simp [hnil] at this

/-! ### Reading on -/

/-- Reading on from the one cursor passes these tokens and comes to the other. -/
inductive Passes : Cursor → List Token → Cursor → Prop where
  | here {c : Cursor} : Passes c [] c
  | skip {c d f : Cursor} {ts : List Token} : c.step? = some (none, d) → Passes d ts f → Passes c ts f
  | token {c d f : Cursor} {t : Token} {ts : List Token} : c.step? = some (some t, d) → Passes d ts f →
      Passes c (t :: ts) f

theorem exists_passes (c : Cursor) : ∃ ts d, Passes c ts d ∧ d.step? = none := by
  match h : c.step? with
  | none => exact ⟨[], c, .here, h⟩
  | some (t, d) =>
    have := step?_length_lt h
    obtain ⟨ts, f, hp, hf⟩ := exists_passes d
    cases t with
    | none => exact ⟨ts, f, .skip h hp, hf⟩
    | some t => exact ⟨t :: ts, f, .token h hp, hf⟩
termination_by c.rest.length

namespace Passes

theorem readFrom (h : Passes c ts d) (before : Array Token) :
    c.readFrom before = d.readFrom (before ++ ts.toArray) := by
  induction h generalizing before with
  | here => simp
  | skip hs _ ih =>
    rw [readFrom_of_step hs, ih]
    rfl
  | token hs _ ih =>
    rw [readFrom_of_step hs, ih]
    simp

theorem read_of_nil (h : Passes c ts d) (hd : d.rest = []) : c.read = (.ok ts.toArray, d) := by
  rw [read, h.readFrom, readFrom_of_nil hd]
  simp

theorem read_of_stuck {x : Char} {s : List Char} (h : Passes c ts d) (hd : d.step? = none) (hs : d.rest = x :: s) :
    c.read = (.error (.illegalCharacter x d.place), d) := by
  rw [read, h.readFrom, readFrom_of_stuck hs hd]

/-- What was passed stands between the cursors. -/
theorem rest_eq (h : Passes c ts d) : ∃ u, c.rest = u ++ d.rest ∧ d.place = c.place.after u := by
  induction h with
  | here => exact ⟨[], rfl, rfl⟩
  | @skip c _ _ _ hs _ ih | @token c _ _ _ _ hs _ ih =>
    obtain ⟨u, hu, hplace⟩ := ih
    obtain ⟨rule, n, hm, -, rfl⟩ := step?_eq_some_iff.mp hs
    obtain ⟨hrest, hplace', -, -⟩ := rest_eq_of_match hm
    refine ⟨c.rest.take n ++ u, ?_, ?_⟩
    · rw [List.append_assoc, ← hu, ← hrest]
    · rw [hplace, hplace', Place.after_append]

theorem isLexeme (h : Passes c ts d) : ∀ t ∈ ts, t.IsLexeme := by
  induction h with
  | here => nofun
  | skip _ _ ih => exact ih
  | token hs _ ih => exact List.forall_mem_cons.mpr ⟨(step?_token hs).2.2.2, ih⟩

end Passes

/-! ### Layout -/

/-- A gap that may still go on: nothing has been read of it, or a comment just has. -/
inductive Open : List Char → List Char → Prop where
  | nothing {rest : List Char} : Open [] rest
  | comment {cs rest : List Char} : '\n' ∉ cs → (∀ c ∈ rest.head?, c = '\n') → Open ('#' :: cs) rest

/-- An open comment ends where blanks follow it. -/
theorem Open.isGap_append {g b s : List Char} (h : Open g (b ++ s)) (hne : b ≠ []) (hb : ∀ c ∈ b, Pattern.isBlank c) :
    IsGap (g ++ b) := by
  cases h with
  | nothing => exact isGap_of_blank hb
  | comment hcs hr =>
    cases b with
    | nil => exact absurd rfl hne
    | cons c b =>
      obtain rfl := hr c rfl
      exact .comment hcs (isGap_of_blank fun c hc => hb c (List.mem_cons_of_mem _ hc))

/-- Only blanks are read behind an open comment. -/
theorem Open.eq_nil {g s : List Char} (h : Open g s) (hs : s ≠ []) (hn : ∀ u, s ≠ '\n' :: u) : g = [] := by
  cases h with
  | nothing => rfl
  | comment _ hr =>
    cases s with
    | nil => exact absurd rfl hs
    | cons c u => exact absurd (by rw [hr c rfl]) (hn u)

/-- What may stand between the last token and the rest of a text. -/
def IsGapBefore (rest g : List Char) : Prop := IsGap g ∨ rest = [] ∧ IsFinalGap g

theorem IsGapBefore.prepend {rest g s : List Char} (hg : IsGap g) (h : IsGapBefore rest s) : IsGapBefore rest (g ++ s) := by
  rcases h with h | ⟨hr, h | ⟨g', cs, hg', hcs, rfl⟩⟩
  · exact Or.inl (hg.append h)
  · exact Or.inr ⟨hr, Or.inl (hg.append h)⟩
  · exact Or.inr ⟨hr, Or.inr ⟨g ++ g', cs, hg.append hg', hcs, (List.append_assoc ..).symm⟩⟩

theorem Open.isGapBefore {g : List Char} (h : Open g c.rest) (hc : c.step? = none) : IsGapBefore c.rest g := by
  cases h with
  | nothing => exact Or.inl .nil
  | comment hcs hr =>
    cases hrest : c.rest with
    | nil => exact Or.inr ⟨rfl, Or.inr ⟨[], _, .nil, hcs, rfl⟩⟩
    | cons x s =>
      rw [hrest] at hr
      obtain rfl := hr x rfl
      rw [step?, hrest, firstMatch?_blank (by decide)] at hc
      cases hc

/-- The text that was passed is laid out as the tokens that were, behind what stood before it. -/
theorem Passes.laidOut (h : Passes c ts d) (hd : d.step? = none) (before g : List Char) (hg : Open g c.rest)
    (hp : c.place = Place.behind (before ++ g)) :
    ∃ u, c.rest = u ++ d.rest ∧ d.place = Place.behind (before ++ (g ++ u)) ∧
      LaidOut (IsGapBefore d.rest) before ts (g ++ u) := by
  -- The open gap is a part of the induction: only the next step shows whether a comment ends in it.
  induction h generalizing before g with
  | here =>
    refine ⟨[], rfl, ?_, .last ?_⟩
    · rw [List.append_nil, hp]
    · rw [List.append_nil]
      exact hg.isGapBefore hd
  | skip hs _ ih =>
    obtain ⟨w, hw, hplace, ⟨hne, hb⟩ | ⟨cs, rfl, hn, hnext⟩⟩ := step?_skip hs
    · -- Blanks close the gap, whatever was open.
      have hgap : IsGap (g ++ w) := (hw ▸ hg).isGap_append hne hb
      rw [hp, ← Place.behind_append, List.append_assoc] at hplace
      obtain ⟨u, hu, hend, hl⟩ := ih hd (before ++ (g ++ w)) [] .nothing (by rw [hplace, List.append_nil])
      refine ⟨w ++ u, by rw [hw, hu, List.append_assoc], by rw [hend]; simp, ?_⟩
      rw [← List.append_assoc]
      exact hl.prepend hgap fun s hs => hs.prepend hgap
    · -- A comment begins where no other one is open.
      obtain rfl := hg.eq_nil (rest_ne_nil hs) fun u hu => by
        rw [hw] at hu
        cases hu
      rw [hp, ← Place.behind_append, List.append_nil] at hplace
      obtain ⟨u, hu, hend, hl⟩ := ih hd before ('#' :: cs) (.comment hn hnext) hplace
      exact ⟨'#' :: cs ++ u, by rw [hw, hu, List.append_assoc], hend, hl⟩
  | @token _ _ _ t _ hs _ ih =>
    obtain rfl := hg.eq_nil (rest_ne_nil hs) (rest_ne_newline hs)
    obtain ⟨hw, hplace, htplace, -⟩ := step?_token hs
    rw [hp, ← Place.behind_append, List.append_nil] at hplace
    obtain ⟨u, hu, hend, hl⟩ := ih hd (before ++ t.text.toList) [] .nothing (by rw [hplace, List.append_nil])
    refine ⟨t.text.toList ++ u, by rw [hw, hu, List.append_assoc], by rw [hend]; simp, ?_⟩
    -- Whatever gap there was has been split off before, so the one in front of the token is empty.
    exact @LaidOut.token _ before [] u t _ .nil (htplace.trans hp) (by rwa [List.append_nil])

/-! ### Reading again -/

theorem readTimes_of_read {r : Except Error (Array Token)} (h : c.read = (r, c)) (n : Nat) :
    readTimes n c = List.replicate n r := by
  induction n with
  | zero => rfl
  | succ n ih => rw [readTimes, h, ih, List.replicate_succ]

end Cursor

/-! ### Source texts -/

/-- A source text that is read consists of its tokens, each at its place, with gaps around them. If it is
    not read, the text up to the character in question consists of lexemes in the same way, no rule
    matches at that character, and its place is reported. Reading again gives no further tokens, or the
    same error, for ever. -/
theorem tokenize_laidOut (source : String) :
    (∀ ts, tokenize source = .ok ts → LaidOut IsFinalGap [] ts.toList source.toList ∧
      ∀ n, (Cursor.ofString source).readTimes (n + 1) = .ok ts :: List.replicate n (.ok #[])) ∧
    (∀ err, tokenize source = .error err → ∃ c u v ts, err = .illegalCharacter c (Place.behind u) ∧
      source.toList = u ++ c :: v ∧ LaidOut IsGap [] ts u ∧ (∀ t ∈ ts, t.IsLexeme) ∧
      (∀ r ∈ Lexicon.rules, r.pattern.matchLength? (c :: v) = none) ∧
      ∀ n, (Cursor.ofString source).readTimes n = List.replicate n (.error err)) := by
  obtain ⟨ts, d, hp, hd⟩ := Cursor.exists_passes (.ofString source)
  obtain ⟨u, hsource, hplace, hl⟩ := hp.laidOut hd [] [] .nothing rfl
  change source.toList = u ++ d.rest at hsource
  cases hrest : d.rest with
  | nil =>
    have hread := hp.read_of_nil hrest
    constructor
    · intro ts' h
      rw [tokenize, hread] at h
      cases h
      refine ⟨?_, fun n => ?_⟩
      · rw [hsource, hrest, List.append_nil]
        exact hl.mono fun g hg => hg.elim Or.inl And.right
      · rw [Cursor.readTimes, hread, Cursor.readTimes_of_read (Cursor.readFrom_of_nil hrest #[])]
    · intro err h
      rw [tokenize, hread] at h
      cases h
  | cons c v =>
    have hread := hp.read_of_stuck hd hrest
    constructor
    · intro ts' h
      rw [tokenize, hread] at h
      cases h
    · intro err h
      rw [tokenize, hread] at h
      cases h
      refine ⟨c, u, v, ts, by rw [hplace]; rfl, by rw [hsource, hrest], hl.mono fun g hg => ?_, hp.isLexeme, ?_,
        fun n => ?_⟩
      · rcases hg with hg | ⟨hnil, -⟩
        · exact hg
        · rw [hrest] at hnil
          cases hnil
      · rw [← hrest]
        exact Cursor.step?_eq_none_iff.mp hd
      · cases n with
        | zero => rfl
        | succ n =>
          rw [Cursor.readTimes, hread, Cursor.readTimes_of_read (Cursor.readFrom_of_stuck hrest hd #[]),
            List.replicate_succ]

theorem tokenize_laidOut_illegal :
    tokenize "#\nx @" = .error (.illegalCharacter '@' ⟨2, 3⟩) ∧
      ∃ u v ts, "#\nx @".toList = u ++ '@' :: v ∧ Place.behind u = ⟨2, 3⟩ ∧ LaidOut IsGap [] ts u := by
  have hp : Cursor.Passes (.ofString "#\nx @") [⟨"x", .name, ⟨2, 1⟩⟩] ⟨['@'], ⟨2, 3⟩⟩ :=
    .skip rfl (.skip rfl (.token rfl (.skip rfl .here)))
  have herr : tokenize "#\nx @" = .error (.illegalCharacter '@' ⟨2, 3⟩) := by
    rw [tokenize, hp.read_of_stuck rfl rfl]
  obtain ⟨c, u, v, ts, he, hs, hl, -⟩ := (tokenize_laidOut "#\nx @").2 _ herr
  obtain ⟨rfl, hplace⟩ := Error.illegalCharacter.inj he
  exact ⟨herr, u, v, ts, hs, hplace.symm, hl⟩

end Imp
