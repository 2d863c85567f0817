import Imp.Json.Read
import Imp.Proofs.Printing.Numerals
import Mathlib.Data.List.TakeWhile
import Mathlib.Tactic.SplitIfs

/-! # Texts of JSON are read back

A value is read back from both of its layouts. Either text is cut into the same lexemes, for the layouts differ in
blanks only; and the lexemes of a value, wherever it stands, lead the reader behind that value. So the text of a value
tells the whole of it: its strings with what is escaped in them, its numbers, and the order of its fields. -/

namespace Imp.Json

variable {b b' : Begun} {c d : Char} {cs text text' : List Char} {ls ls' : List Lexeme}

/-! ### Strings -/

theorem lexemes?_of_take (h : b.take? c = some (ls, b')) (cs : List Char) :
    lexemes? b (c :: cs) = (lexemes? b' cs).map (ls ++ ·) := by
  rw [lexemes?, h]

theorem lexemes?_of_silent (b' : Begun) (h : b.take? c = some ([], b')) (cs : List Char) :
    lexemes? b (c :: cs) = lexemes? b' cs := by
  rw [lexemes?_of_take h]
  exact Option.map_id'

theorem lexemes?_unescape (h : unescape? d = some c) (hd : d ≠ 'u') (read cs : List Char) :
    lexemes? (.string read) ('\\' :: d :: cs) = lexemes? (.string (c :: read)) cs := by
  have hescape : (Begun.escape read).take? d = some ([], .string (c :: read)) := by
    rw [Begun.take?, if_neg hd, h]
    rfl
  rw [lexemes?_of_silent (.escape read) rfl, lexemes?_of_silent _ hescape]

theorem hexValue?_hexDigit : ∀ n < 16, hexValue? (hexDigit n) = some n := by decide

theorem lexemes?_code (h : c.toNat < 0x20) (read cs : List Char) :
    lexemes? (.string read) ('\\' :: 'u' :: '0' :: '0' :: hexDigit (c.toNat / 16) :: hexDigit (c.toNat % 16) :: cs) =
      lexemes? (.string (c :: read)) cs := by
  have hhigh : (Begun.code read 1 0).take? (hexDigit (c.toNat / 16)) = some ([], .code read 0 (c.toNat / 16)) := by
    simp [Begun.take?, hexValue?_hexDigit (c.toNat / 16) (by omega)]
  have hsum : 16 * (c.toNat / 16) + c.toNat % 16 = c.toNat := Nat.div_add_mod _ 16
  have hlow : (Begun.code read 0 (c.toNat / 16)).take? (hexDigit (c.toNat % 16)) = some ([], .string (c :: read)) := by
    have hvalid : c.toNat.isValidChar := Or.inl (by omega)
    simp [Begun.take?, hexValue?_hexDigit (c.toNat % 16) (by omega), hsum, hvalid]
  rw [lexemes?_of_silent (.escape read) rfl, lexemes?_of_silent (.code read 3 0) rfl,
    lexemes?_of_silent (.code read 2 0) rfl, lexemes?_of_silent (.code read 1 0) rfl,
    lexemes?_of_silent _ hhigh, lexemes?_of_silent _ hlow]

/-- A character is read from what stands for it in a string. -/
theorem lexemes?_escape (c : Char) (read cs : List Char) :
    lexemes? (.string read) (escape c ++ cs) = lexemes? (.string (c :: read)) cs := by
  unfold escape
  split_ifs with hquote hbackslash hnewline hreturn htab hback hfeed hcontrol
  · subst hquote
    exact lexemes?_unescape rfl (by decide) read cs
  · subst hbackslash
    exact lexemes?_unescape rfl (by decide) read cs
  · subst hnewline
    exact lexemes?_unescape rfl (by decide) read cs
  · subst hreturn
    exact lexemes?_unescape rfl (by decide) read cs
  · subst htab
    exact lexemes?_unescape rfl (by decide) read cs
  · exact lexemes?_unescape (by rw [← Char.ofNat_toNat c, hback]; rfl) (by decide) read cs
  · exact lexemes?_unescape (by rw [← Char.ofNat_toNat c, hfeed]; rfl) (by decide) read cs
  · exact lexemes?_code hcontrol read cs
  · refine lexemes?_of_silent _ ?_ cs
    rw [Begun.take?, if_neg hquote, if_neg hbackslash, if_neg hcontrol]

theorem lexemes?_quote (s : String) (cs : List Char) :
    lexemes? .nothing ((quote s).toList ++ cs) = (lexemes? .nothing cs).map (.string s :: ·) := by
  have hrest : ∀ (l read : List Char), lexemes? (.string read) (l.flatMap escape ++ '"' :: cs) =
      (lexemes? .nothing cs).map (.string (String.ofList (read.reverse ++ l)) :: ·) := by
    intro l
    induction l with
    | nil =>
      intro read
      have hend : (Begun.string read).take? '"' = some ([.string (String.ofList read.reverse)], .nothing) := rfl
      rw [List.append_nil]
      exact lexemes?_of_take hend cs
    | cons c l ih =>
      intro read
      rw [List.flatMap_cons, List.append_assoc, lexemes?_escape, ih, List.reverse_cons, List.append_assoc]
      rfl
  have hquote : (quote s).toList ++ cs = '"' :: (s.toList.flatMap escape ++ '"' :: cs) := by simp [quote]
  rw [hquote, lexemes?_of_silent (.string []) rfl, hrest, List.reverse_nil, List.nil_append, String.ofList_toList]

/-! ### Words -/

/-- A character that a word may have in it. -/
def IsWordChar (c : Char) : Prop := c ≠ '"' ∧ delimiter? c = none

instance (c : Char) : Decidable (IsWordChar c) := inferInstanceAs (Decidable (_ ∧ _))

theorem isWordChar_of_isDigit (h : c.isDigit) : IsWordChar c := by
  refine ⟨?_, List.lookup_eq_none_iff.mpr fun p hp => ?_⟩
  · rintro rfl
    cases h
  · have hp : p.1.isDigit = false := (show ∀ p ∈ delimiters, p.1.isDigit = false by decide) p hp
    rw [bne_iff_ne]
    rintro rfl
    rw [h] at hp
    cases hp

/-- A word is over at the end of a text and before a mark or a blank. -/
def EndsWord (cs : List Char) : Prop := ∀ c ∈ cs.head?, (delimiter? c).isSome

theorem EndsWord.nil : EndsWord [] := by simp [EndsWord]

theorem EndsWord.cons (hc : (delimiter? c).isSome) : EndsWord (c :: cs) := by
  rintro d ⟨⟩
  exact hc

theorem lexemes?_word (hw : ∀ c ∈ text, IsWordChar c) (hcs : EndsWord cs) (read : List Char) :
    lexemes? (.word read) (text ++ cs) = (lexemes? .nothing cs).map (.word (read.reverse ++ text) :: ·) := by
  induction text generalizing read with
  | nil =>
    cases cs with
    | nil => simp [lexemes?]
    | cons c cs =>
      obtain ⟨ls, hls⟩ := Option.isSome_iff_exists.mp (hcs c rfl)
      have hword : (Begun.word read).take? c = some (.word read.reverse :: ls, .nothing) := by rw [Begun.take?, hls]
      have hnothing : Begun.nothing.take? c = some (ls, .nothing) := by
        have hc : c ≠ '"' := by
          rintro rfl
          cases hls
        rw [Begun.take?, if_neg hc, hls]
      rw [List.nil_append, lexemes?_of_take hword, lexemes?_of_take hnothing, Option.map_map, List.append_nil]
      rfl
  | cons c text ih =>
    obtain ⟨⟨-, hc⟩, hw⟩ := List.forall_mem_cons.mp hw
    have hword : (Begun.word read).take? c = some ([], .word (c :: read)) := by rw [Begun.take?, hc]
    rw [List.cons_append, lexemes?_of_silent _ hword, ih hw, List.reverse_cons, List.append_assoc]
    rfl

/-! ### Numbers -/

theorem natural?_repr (n : Nat) : natural? n.repr.toList = some n := by
  rw [natural?, Numeral.digits?_repr, Option.filter_some, if_pos (decide_eq_true rfl)]

theorem integer?_toString (m : Int) : integer? (toString m).toList = some m := by
  cases m with
  | ofNat n =>
    change integer? n.repr.toList = _
    rw [integer?.eq_2 _ fun s => Numeral.repr_ne_cons rfl n s, natural?_repr]
    rfl
  | negSucc n =>
    have htext : (toString (Int.negSucc n)).toList = '-' :: (n + 1).repr.toList := by
      rw [show toString (Int.negSucc n) = "-" ++ (n + 1).repr from rfl, String.toList_append]
      rfl
    rw [htext, integer?.eq_1, natural?_repr]
    rfl

/-- A character of an integer. -/
theorem isDigit_or_minus (m : Int) (hc : c ∈ (toString m).toList) : c.isDigit ∨ c = '-' := by
  cases m with
  | ofNat n => exact .inl ((Numeral.spells_repr n).2 c hc)
  | negSucc n =>
    rw [show toString (Int.negSucc n) = "-" ++ (n + 1).repr from rfl, String.toList_append] at hc
    rcases List.mem_append.mp hc with hc | hc
    · exact .inr (List.mem_singleton.mp hc)
    · exact .inl ((Numeral.spells_repr (n + 1)).2 c hc)

/-- A character of a number. -/
theorem isDigit_or_mark {d : Nat} (m : Int) (hc : c ∈ (numberText m d).toList) : c.isDigit ∨ c = '-' ∨ c = 'e' := by
  unfold numberText at hc
  split at hc
  · exact (isDigit_or_minus m hc).imp_right .inl
  · rw [String.toList_append, String.toList_append] at hc
    rcases List.mem_append.mp hc with hc | hc
    · rcases List.mem_append.mp hc with hc | hc
      · exact (isDigit_or_minus m hc).imp_right .inl
      · have hc : c ∈ ['e', '-'] := hc
        simp only [List.mem_cons, List.not_mem_nil, or_false] at hc
        exact .inr hc.symm
    · exact .inl ((Numeral.spells_repr d).2 c hc)

theorem number?_numberText (m : Int) (d : Nat) : number? (numberText m d).toList = some (number m d) := by
  -- Only the exponent has an `e` in it.
  have hmantissa : ∀ c ∈ (toString m).toList, decide (c ≠ 'e') = true := by
    intro c hc
    rcases isDigit_or_minus m hc with hc | rfl
    · refine decide_eq_true fun he => ?_
      rw [he] at hc
      cases hc
    · decide
  by_cases hd : d = 0
  · have hdrop : (numberText m d).toList.dropWhile (· ≠ 'e') = [] := by
      rw [numberText, if_pos hd, List.dropWhile_eq_nil_iff]
      exact hmantissa
    rw [number?, hdrop, numberText, if_pos hd, hd]
    exact congrArg (Option.map int) (integer?_toString m)
  · have htext : (numberText m d).toList = (toString m).toList ++ 'e' :: '-' :: d.repr.toList := by
      rw [numberText, if_neg hd, String.toList_append, String.toList_append, List.append_assoc]
      rfl
    have hdrop : (numberText m d).toList.dropWhile (· ≠ 'e') = 'e' :: '-' :: d.repr.toList := by
      rw [htext, List.dropWhile_append_of_pos hmantissa, List.dropWhile_cons_of_neg (by decide)]
    have htake : (numberText m d).toList.takeWhile (· ≠ 'e') = (toString m).toList := by
      rw [htext, List.takeWhile_append_of_pos hmantissa, List.takeWhile_cons_of_neg (by decide), List.append_nil]
    simp only [number?, hdrop, htake, integer?_toString, natural?_repr]
    rfl

theorem ofWord?_numberText (m : Int) (d : Nat) : ofWord? (numberText m d).toList = some (number m d) := by
  -- The names have letters in them that no number has.
  have hname : ∀ c ∈ (numberText m d).toList, ¬ c.isDigit → c ≠ '-' → c ≠ 'e' → False :=
    fun c hc hdigit hminus he => (isDigit_or_mark m hc).elim hdigit fun h => h.elim hminus he
  rw [ofWord?, if_neg, if_neg, if_neg, number?_numberText]
  · exact fun h => hname 'f' (by rw [h]; decide) (by decide) (by decide) (by decide)
  · exact fun h => hname 't' (by rw [h]; decide) (by decide) (by decide) (by decide)
  · exact fun h => hname 'n' (by rw [h]; decide) (by decide) (by decide) (by decide)

/-! ### Layouts -/

mutual

/-- What the texts of a value are cut into. -/
def lexemes : Json → List Lexeme
  | null => [.word "null".toList]
  | bool b => [.word (if b then "true" else "false").toList]
  | number m d => [.word (numberText m d).toList]
  | string s => [.string s]
  | array items => .openArray :: (itemLexemes items ++ [.closeArray])
  | object fields => .openObject :: (fieldLexemes fields ++ [.closeObject])

/-- What items with commas between them are cut into. -/
def itemLexemes : List Json → List Lexeme
  | [] => []
  | [j] => j.lexemes
  | j :: k :: rest => j.lexemes ++ .comma :: itemLexemes (k :: rest)

/-- What fields with commas between them are cut into. -/
def fieldLexemes : List (String × Json) → List Lexeme
  | [] => []
  | [(x, j)] => .string x :: .colon :: j.lexemes
  | (x, j) :: f :: rest => .string x :: .colon :: (j.lexemes ++ .comma :: fieldLexemes (f :: rest))

end

/-- Before whatever ends a word, the text is cut into these lexemes. -/
def IsLayout (text : List Char) (ls : List Lexeme) : Prop :=
  ∀ cs, EndsWord cs → lexemes? .nothing (text ++ cs) = (lexemes? .nothing cs).map (ls ++ ·)

theorem newline_toList (depth : Nat) : (newline depth).toList = '\n' :: List.replicate (2 * depth) ' ' := by
  simp [newline]

theorem endsWord_newline (depth : Nat) (cs : List Char) : EndsWord ((newline depth).toList ++ cs) := by
  rw [newline_toList]
  exact .cons rfl

namespace IsLayout

theorem nil : IsLayout [] [] := fun _ _ => Option.map_id'.symm

theorem word (hne : text ≠ []) (hw : ∀ c ∈ text, IsWordChar c) : IsLayout text [.word text] := by
  intro cs hcs
  cases text with
  | nil => exact absurd rfl hne
  | cons c text =>
    obtain ⟨⟨hquote, hc⟩, hw⟩ := List.forall_mem_cons.mp hw
    have hword : Begun.nothing.take? c = some ([], .word [c]) := by rw [Begun.take?, if_neg hquote, hc]
    rw [List.cons_append, lexemes?_of_silent _ hword, lexemes?_word hw hcs]
    rfl

theorem name (hne : text ≠ []) (hw : text.all fun c => decide (IsWordChar c)) : IsLayout text [.word text] :=
  word hne fun c hc => of_decide_eq_true (List.all_eq_true.mp hw c hc)

theorem quote (s : String) (h : IsLayout text ls) : IsLayout ((Json.quote s).toList ++ text) (.string s :: ls) := by
  intro cs hcs
  rw [List.append_assoc, lexemes?_quote, h cs hcs, Option.map_map]
  rfl

theorem mark (hc : delimiter? c = some ls) (h : IsLayout text ls') : IsLayout (c :: text) (ls ++ ls') := by
  intro cs hcs
  have hquote : c ≠ '"' := by
    rintro rfl
    cases hc
  have hmark : Begun.nothing.take? c = some (ls, .nothing) := by rw [Begun.take?, if_neg hquote, hc]
  rw [List.cons_append, lexemes?_of_take hmark, h cs hcs, Option.map_map]
  simp only [Function.comp_def, List.append_assoc]

theorem newline (depth : Nat) (h : IsLayout text ls) : IsLayout ((Json.newline depth).toList ++ text) ls := by
  have hblanks : ∀ n, IsLayout (List.replicate n ' ' ++ text) ls := by
    intro n
    induction n with
    | zero => exact h
    | succ n ih => exact mark (c := ' ') rfl ih
  rw [newline_toList]
  exact mark (c := '\n') rfl (hblanks _)

/-- What stands behind a layout ends the last word in it. -/
theorem append (h : IsLayout text ls) (h' : IsLayout text' ls') (hends : ∀ cs, EndsWord (text' ++ cs)) :
    IsLayout (text ++ text') (ls ++ ls') := by
  intro cs hcs
  rw [List.append_assoc, h _ (hends cs), h' cs hcs, Option.map_map]
  simp only [Function.comp_def, List.append_assoc]

end IsLayout

theorem isLayout_numberText (m : Int) (d : Nat) : IsLayout (numberText m d).toList [.word (numberText m d).toList] := by
  refine .word (fun h => ?_) fun c hc => ?_
  · have hread := number?_numberText m d
    rw [h] at hread
    cases hread
  · rcases isDigit_or_mark m hc with hc | rfl | rfl
    · exact isWordChar_of_isDigit hc
    · decide
    · decide

/-! ### Compact texts -/

mutual

theorem isLayout_compact : ∀ j : Json, IsLayout j.compact.toList j.lexemes
  | null => .name (by decide) rfl
  | bool true => .name (by decide) rfl
  | bool false => .name (by decide) rfl
  | number m d => isLayout_numberText m d
  | string s => by
    have h := IsLayout.quote s .nil
    rwa [List.append_nil] at h
  | array items => by
    have h := (isLayout_compactItems items).append (.mark (c := ']') rfl .nil) fun _ => .cons rfl
    simpa [compact, lexemes] using IsLayout.mark (c := '[') rfl h
  | object fields => by
    have h := (isLayout_compactFields fields).append (.mark (c := '\x7d') rfl .nil) fun _ => .cons rfl
    simpa [compact, lexemes] using IsLayout.mark (c := '\x7b') rfl h

theorem isLayout_compactItems : ∀ items : List Json, IsLayout (compactItems items).toList (itemLexemes items)
  | [] => .nil
  | [j] => isLayout_compact j
  | j :: k :: rest => by
    have h := (isLayout_compact j).append (.mark (c := ',') rfl (isLayout_compactItems (k :: rest))) fun _ => .cons rfl
    simpa [compactItems, itemLexemes] using h

theorem isLayout_compactFields : ∀ fields : List (String × Json),
    IsLayout (compactFields fields).toList (fieldLexemes fields)
  | [] => .nil
  | [(x, j)] => by
    have h := IsLayout.quote x (.mark (c := ':') rfl (isLayout_compact j))
    simpa [compactFields, fieldLexemes] using h
  | (x, j) :: f :: rest => by
    have h := (isLayout_compact j).append (.mark (c := ',') rfl (isLayout_compactFields (f :: rest))) fun _ => .cons rfl
    simpa [compactFields, fieldLexemes] using IsLayout.quote x (.mark (c := ':') rfl h)

end

/-! ### Pretty texts -/

mutual

theorem isLayout_pretty : ∀ (j : Json) (depth : Nat), IsLayout (j.pretty depth).toList j.lexemes
  | null, _ => isLayout_compact null
  | bool b, _ => isLayout_compact (bool b)
  | number m d, _ => isLayout_compact (number m d)
  | string s, _ => isLayout_compact (string s)
  | array [], _ => isLayout_compact (array [])
  | object [], _ => isLayout_compact (object [])
  | array (j :: rest), depth => by
    have hend : IsLayout ((newline depth).toList ++ [']']) [.closeArray] :=
      .newline depth (.mark (c := ']') rfl .nil)
    have h := (isLayout_prettyItems (j :: rest) (depth + 1)).append hend fun _ => by
      rw [List.append_assoc]
      exact endsWord_newline depth _
    simpa [pretty, lexemes] using IsLayout.mark (c := '[') rfl h
  | object (f :: rest), depth => by
    have hend : IsLayout ((newline depth).toList ++ ['\x7d']) [.closeObject] :=
      .newline depth (.mark (c := '\x7d') rfl .nil)
    have h := (isLayout_prettyFields (f :: rest) (depth + 1)).append hend fun _ => by
      rw [List.append_assoc]
      exact endsWord_newline depth _
    simpa [pretty, lexemes] using IsLayout.mark (c := '\x7b') rfl h

theorem isLayout_prettyItems : ∀ (items : List Json) (depth : Nat),
    IsLayout (prettyItems depth items).toList (itemLexemes items)
  | [], _ => .nil
  | [j], depth => by
    have h := IsLayout.newline depth (isLayout_pretty j depth)
    simpa [prettyItems, itemLexemes] using h
  | j :: k :: rest, depth => by
    have hrest := isLayout_prettyItems (k :: rest) depth
    have h := (isLayout_pretty j depth).append (.mark (c := ',') rfl hrest) fun _ => .cons rfl
    simpa [prettyItems, itemLexemes] using IsLayout.newline depth h

theorem isLayout_prettyFields : ∀ (fields : List (String × Json)) (depth : Nat),
    IsLayout (prettyFields depth fields).toList (fieldLexemes fields)
  | [], _ => .nil
  | [(x, j)], depth => by
    have h := IsLayout.quote x (.mark (c := ':') rfl (.mark (c := ' ') rfl (isLayout_pretty j depth)))
    simpa [prettyFields, fieldLexemes] using IsLayout.newline depth h
  | (x, j) :: f :: rest, depth => by
    have hrest := isLayout_prettyFields (f :: rest) depth
    have h := (isLayout_pretty j depth).append (.mark (c := ',') rfl hrest) fun _ => .cons rfl
    have hfield := IsLayout.quote x (.mark (c := ':') rfl (.mark (c := ' ') rfl h))
    simpa [prettyFields, fieldLexemes] using IsLayout.newline depth hfield

end

/-! ### Values -/

mutual

/-- The lexemes of a value lead behind it. -/
theorem foldlM_lexemes : ∀ (j : Json) (around : List Frame),
    j.lexemes.foldlM Awaited.take? (.value around) = some (.next j around)
  | null, _ => rfl
  | bool true, _ => rfl
  | bool false, _ => rfl
  | number m d, around => by
    rw [lexemes, List.foldlM_cons, Awaited.take?, ofWord?_numberText]
    rfl
  | string s, _ => rfl
  | array items, around => by
    rw [lexemes, List.foldlM_cons]
    exact foldlM_itemLexemes items [] around fun _ => rfl
  | object fields, around => by
    rw [lexemes, List.foldlM_cons]
    exact foldlM_fieldLexemes fields [] around fun _ => rfl

theorem foldlM_itemLexemes : ∀ (items before : List Json) (around : List Frame), (items = [] → before = []) →
    (itemLexemes items ++ [Lexeme.closeArray]).foldlM Awaited.take? (.value (.array before :: around)) =
      some (.next (.array (before.reverse ++ items)) around)
  | [], before, around, h => by
    rw [h rfl]
    rfl
  | [j], before, around, _ => by
    rw [itemLexemes, List.foldlM_append, foldlM_lexemes]
    simp [Awaited.take?]
  | j :: k :: rest, before, around, _ => by
    rw [itemLexemes, List.append_assoc, List.foldlM_append, foldlM_lexemes]
    have h := foldlM_itemLexemes (k :: rest) (j :: before) around fun hnil => absurd hnil (List.cons_ne_nil k rest)
    simpa [Awaited.take?] using h

theorem foldlM_fieldLexemes : ∀ (fields before : List (String × Json)) (around : List Frame),
    (fields = [] → before = []) →
    (fieldLexemes fields ++ [Lexeme.closeObject]).foldlM Awaited.take? (.field before around) =
      some (.next (.object (before.reverse ++ fields)) around)
  | [], before, around, h => by
    rw [h rfl]
    rfl
  | [(x, j)], before, around, _ => by
    have h := foldlM_lexemes j (.object before x :: around)
    simp [fieldLexemes, Awaited.take?, h]
  | (x, j) :: f :: rest, before, around, _ => by
    have h := foldlM_lexemes j (.object before x :: around)
    have hrest := foldlM_fieldLexemes (f :: rest) ((x, j) :: before) around fun hnil =>
      absurd hnil (List.cons_ne_nil f rest)
    simpa [fieldLexemes, Awaited.take?, h] using hrest

end

/-! ### Texts -/

/-- What is laid out as a value is read as that value, also as the last line of a text. -/
theorem IsLayout.ofText? {text : String} {j : Json} (h : IsLayout text.toList j.lexemes) :
    Json.ofText? text = some j ∧ Json.ofText? (text ++ "\n") = some j := by
  have hread : ofLexemes? j.lexemes = some j := by rw [ofLexemes?, foldlM_lexemes]
  have htext : lexemes? .nothing text.toList = some j.lexemes := by simpa [lexemes?] using h [] .nil
  have hline : lexemes? .nothing (text ++ "\n").toList = some j.lexemes := by
    rw [String.toList_append, show "\n".toList = ['\n'] from rfl, h _ (.cons rfl)]
    exact congrArg some (List.append_nil _)
  constructor
  · rw [Json.ofText?, htext]
    exact hread
  · rw [Json.ofText?, hline]
    exact hread

/-- A value is read back from its text on one line. -/
theorem ofText?_compact (j : Json) : ofText? j.compact = some j := (isLayout_compact j).ofText?.1

/-- A value is read back from its text on lines, however far they are indented. -/
theorem ofText?_pretty (j : Json) (depth : Nat) : ofText? (j.pretty depth) = some j :=
  (isLayout_pretty j depth).ofText?.1

theorem ofText?_pretty_newline (j : Json) (depth : Nat) : ofText? (j.pretty depth ++ "\n") = some j :=
  (isLayout_pretty j depth).ofText?.2

end Imp.Json
