import Imp.CommandLine.Output
import Imp.Proofs.Env.History
import Imp.Proofs.Printing.NormalForm
import Imp.Proofs.Program.Messages
import Imp.Proofs.Semantics.Frame
import Imp.Proofs.Syntax.Json
import Imp.Proofs.Token.Classes

/-! # Printed variables are read back

A line for each variable tells the whole environment, as long as no name has a colon or a newline in it. No name
of a program has: all of them are identifiers, and a run from no variables binds only names of its program. As JSON
the variables tell the environment whatever their names are. -/

namespace Imp

/-- A run from no variables binds only identifiers. -/
theorem Program.spells_of_contains {source : String} {s : Stmt} {limit : Option UInt64} {o : Outcome} {x : String}
    (hs : ofSource source = .ok s) (h : s.Ends limit .empty o) (hx : o.env.contains x) : Kind.name.Spells x := by
  rcases h.contains_or_assigned hx with hempty | hassigned
  · cases hempty
  · exact (isNormal hs).names x (s.assigned_subset_names x hassigned)

namespace CommandLine

variable {e : Env} {x : String}

/-! ### Lines -/

theorem isLine_variableLine (hx : Text.IsLine x) (n : Int64) : Text.IsLine (variableLine (x, n)) := by
  simp only [variableLine, Text.isLine_append]
  exact ⟨⟨hx, by decide⟩, isLine_toInt n⟩

theorem readVariable?_variableLine (hx : ':' ∉ x.toList) (n : Int64) :
    readVariable? (variableLine (x, n)) = some (x, n) := by
  -- The first colon of the line is the one behind the name.
  have hname : ∀ c ∈ x.toList, decide (c ≠ ':') = true := fun c hc => decide_eq_true fun h => hx (h ▸ hc)
  have hline : (variableLine (x, n)).toList = x.toList ++ ':' :: ' ' :: (toString n.toInt).toList := by
    simp [variableLine]
  have hdrop : (variableLine (x, n)).toList.dropWhile (· ≠ ':') = ':' :: ' ' :: (toString n.toInt).toList := by
    rw [hline, List.dropWhile_append_of_pos hname, List.dropWhile_cons_of_neg (by decide)]
  have htake : (variableLine (x, n)).toList.takeWhile (· ≠ ':') = x.toList := by
    rw [hline, List.takeWhile_append_of_pos hname, List.takeWhile_cons_of_neg (by decide), List.append_nil]
  simp only [readVariable?, hdrop, htake, String.ofList_toList, Numeral.readInt64?_toString]
  rfl

/-- What can be read back one by one can be read back from the list. -/
theorem mapM_map_eq_some {α β : Type} {write : α → β} {read : β → Option α} {l : List α}
    (h : ∀ a ∈ l, read (write a) = some a) : (l.map write).mapM read = some l := by
  induction l with
  | nil => rfl
  | cons a l ih =>
    obtain ⟨ha, hl⟩ := List.forall_mem_cons.mp h
    rw [List.map_cons, List.mapM_cons, ha, ih hl]
    rfl

theorem lines?_variableLines (h : ∀ x, e.contains x → Text.IsLine x) :
    Text.lines? (variableLines e) = some (e.toList.map variableLine) := by
  have hlines : ∀ l ∈ e.toList.map variableLine, Text.IsLine l := by
    intro l hl
    obtain ⟨⟨x, n⟩, hp, rfl⟩ := List.mem_map.mp hl
    exact isLine_variableLine (h x (Env.mem_names_iff.mp (List.mem_map_of_mem hp))) n
  rw [← Text.lines?_join hlines, List.map_map]
  rfl

theorem readVariables?_variableLines (h : ∀ x, e.contains x → Text.IsLine x ∧ ':' ∉ x.toList) :
    readVariables? (variableLines e) = some e := by
  have hread : (e.toList.map variableLine).mapM readVariable? = some e.toList := mapM_map_eq_some fun p hp =>
    readVariable?_variableLine (h p.1 (Env.mem_names_iff.mp (List.mem_map_of_mem hp))).2 p.2
  rw [readVariables?, lines?_variableLines fun x hx => (h x hx).1]
  simp only [Option.bind_eq_bind, Option.bind_some, hread, Option.pure_def, Env.ofList_toList]

/-! ### As JSON -/

theorem ofJson?_toJson (e : Env) : Env.ofJson? e.toJson = some e := by
  have hread : (e.toList.map fun p => (p.1, Json.int p.2.toInt)).mapM (fun f => f.2.int64?.map (f.1, ·)) =
      some e.toList := mapM_map_eq_some fun p _ => by
    rw [(Json.Same.refl (.int p.2.toInt)).int64?]
    rfl
  rw [Env.toJson, Env.ofJson?, hread, Option.map_some, Env.ofList_toList]

end CommandLine

end Imp
