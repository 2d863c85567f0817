/-! # Texts of lines

A text of lines ends each of its lines with a newline. Lines can be read back from the text that they make, for
a line has no newline of its own. -/

namespace Imp.Text

/-- The text stands on one line. -/
def IsLine (text : String) : Prop := '\n' ∉ text.toList

instance (text : String) : Decidable (IsLine text) := inferInstanceAs (Decidable (¬ _))

@[simp] theorem isLine_append {s t : String} : IsLine (s ++ t) ↔ IsLine s ∧ IsLine t := by
  simp [IsLine]

theorem isLine_singleton {c : Char} (h : c ≠ '\n') : IsLine c.toString := by
  simp [IsLine, h.symm]

theorem isLine_repr (n : Nat) : IsLine n.repr := by
  intro h
  rw [Nat.toList_repr] at h
  exact absurd (Nat.isDigit_of_mem_toDigits (by decide) (by decide) h) (by decide)

/-! ### Lines of a text -/

/-- The lines of a text that ends with a newline, or is empty. -/
def splitLines? : List Char → Option (List (List Char))
  | [] => some []
  | '\n' :: s => (splitLines? s).map ([] :: ·)
  | c :: s =>
    match splitLines? s with
    | some (l :: ls) => some ((c :: l) :: ls)
    | _ => none

/-- The lines of a text, if each of them is ended by a newline. -/
def lines? (text : String) : Option (List String) := (splitLines? text.toList).map (List.map String.ofList)

theorem splitLines?_line {l : List Char} (h : '\n' ∉ l) (s : List Char) :
    splitLines? (l ++ '\n' :: s) = (splitLines? s).map (l :: ·) := by
  induction l with
  | nil => rfl
  | cons c l ih =>
    obtain ⟨hc, hl⟩ := List.ne_and_not_mem_of_not_mem_cons h
    rw [List.cons_append, splitLines?.eq_3 c _ fun heq => hc heq.symm, ih hl]
    cases splitLines? s <;> rfl

theorem splitLines?_join_append {ls : List String} (h : ∀ l ∈ ls, IsLine l) (s : List Char) :
    splitLines? ((String.join (ls.map (· ++ "\n"))).toList ++ s) = (splitLines? s).map (ls.map String.toList ++ ·) := by
  induction ls with
  | nil => exact Option.map_id'.symm
  | cons l ls ih =>
    obtain ⟨hl, hls⟩ := List.forall_mem_cons.mp h
    have htext : (String.join ((l :: ls).map (· ++ "\n"))).toList ++ s =
        l.toList ++ '\n' :: ((String.join (ls.map (· ++ "\n"))).toList ++ s) := by
      simp [String.join_cons]
    rw [htext, splitLines?_line hl, ih hls, Option.map_map]
    rfl

/-- Lines are read back from the text that they make with what stands below them. -/
theorem lines?_join_append {ls : List String} (h : ∀ l ∈ ls, IsLine l) (text : String) :
    lines? (String.join (ls.map (· ++ "\n")) ++ text) = (lines? text).map (ls ++ ·) := by
  have hback : (ls.map String.toList).map String.ofList = ls := by
    rw [List.map_map]
    exact List.map_id'' (fun l => String.ofList_toList) ls
  rw [lines?, lines?, String.toList_append, splitLines?_join_append h, Option.map_map, Option.map_map]
  simp only [Function.comp_def, List.map_append, hback]

theorem lines?_join {ls : List String} (h : ∀ l ∈ ls, IsLine l) :
    lines? (String.join (ls.map (· ++ "\n"))) = some ls := by
  have hjoin := lines?_join_append h ""
  rwa [String.append_empty, show lines? "" = some [] from rfl, Option.map_some, List.append_nil] at hjoin

theorem lines?_line {l : String} (h : IsLine l) : lines? (l ++ "\n") = some [l] := by
  have hjoin : String.join ([l].map (· ++ "\n")) = l ++ "\n" := by simp
  rw [← hjoin, lines?_join (List.forall_mem_singleton.mpr h)]

end Imp.Text
