import Mathlib.Data.List.Induction
import Imp.Proofs.Env.Lookup
import Imp.Proofs.Text.ByteOrder

/-! # What a history of stores leaves

An environment is built from a list of pairs, and values are stored in it one after another: in both, of several
values for one name the last remains. So all that is left of such a history is the last value of each name, and the
order in which different names were given makes no difference. -/

namespace Imp.Env

variable {x : String} {n : Int64} {e : Env} {l : List (String × Int64)} {p : String × Int64}

/-! ### Bindings -/

theorem nodup_names (e : Env) : (e.toList.map Prod.fst).Nodup :=
  List.pairwise_map.mpr (e.sorted.imp String.ne_of_lt)

theorem mem_toList_iff : (x, n) ∈ e.toList ↔ e.get? x = some n := (lookup_eq_some_iff_mem (nodup_names e)).symm

theorem mem_names_iff : x ∈ e.toList.map Prod.fst ↔ e.contains x := by
  rw [contains, Option.isSome_iff_exists, List.mem_map]
  constructor
  · rintro ⟨⟨_, n⟩, h, rfl⟩
    exact ⟨n, mem_toList_iff.mp h⟩
  · rintro ⟨n, h⟩
    exact ⟨(x, n), mem_toList_iff.mpr h, rfl⟩

/-! ### Histories -/

/-- The history gives this value to the name, and no other value after it. -/
def GivenLast (history : List (String × Int64)) (x : String) (n : Int64) : Prop :=
  ∃ before after, history = before ++ (x, n) :: after ∧ x ∉ after.map Prod.fst

/-- The value given last is the first one that is found from the end. -/
theorem lookup_reverse_iff : l.reverse.lookup x = some n ↔ GivenLast l x n := by
  rw [List.lookup_eq_some_iff]
  constructor
  · rintro ⟨before, after, h, hne⟩
    refine ⟨after.reverse, before.reverse, ?_, fun hx => ?_⟩
    · rw [List.reverse_eq_iff.mp h]
      simp
    · obtain ⟨p, hp, rfl⟩ := List.mem_map.mp hx
      exact bne_iff_ne.mp (hne p (List.mem_reverse.mp hp)) rfl
  · rintro ⟨before, after, rfl, hx⟩
    refine ⟨after.reverse, before.reverse, by simp, fun p hp => bne_iff_ne.mpr ?_⟩
    rintro rfl
    exact hx (List.mem_map_of_mem (List.mem_reverse.mp hp))

theorem givenLast_iff_mem (h : (l.map Prod.fst).Nodup) : GivenLast l x n ↔ (x, n) ∈ l := by
  have hreverse : (l.reverse.map Prod.fst).Nodup := ((List.reverse_perm l).map Prod.fst).nodup_iff.mpr h
  rw [← lookup_reverse_iff, lookup_eq_some_iff_mem hreverse, List.mem_reverse]

theorem insertMany_concat : e.insertMany (l ++ [p]) = (e.insertMany l).insert p.1 p.2 := by
  rw [insertMany, List.foldl_append]
  rfl

theorem get?_ofList (l : List (String × Int64)) (x : String) : (ofList l).get? x = l.reverse.lookup x := by
  -- The last pair was stored last.
  induction l using List.reverseRecOn with
  | nil => rfl
  | append_singleton l p ih =>
    rw [ofList, insertMany_concat, get?_insert, List.reverse_concat, lookup_cons, ← ih]
    rfl

theorem get?_ofList_iff : (ofList l).get? x = some n ↔ GivenLast l x n := by rw [get?_ofList, lookup_reverse_iff]

theorem contains_ofList_iff : (ofList l).contains x ↔ x ∈ l.map Prod.fst := by
  rw [contains, get?_ofList, Option.isSome_iff_ne_none, Ne, List.lookup_eq_none_iff]
  simp only [List.mem_reverse, bne_iff_ne, not_forall, not_not, exists_prop, List.mem_map, eq_comm (a := x)]

theorem ofList_toList (e : Env) : ofList e.toList = e := by
  refine ext_get? fun x => Option.ext fun n => ?_
  rw [get?_ofList_iff, givenLast_iff_mem (nodup_names e), mem_toList_iff]

theorem ofList_append (l l' : List (String × Int64)) : ofList (l ++ l') = (ofList l).insertMany l' := List.foldl_append

/-- Histories leave equal environments exactly if they give the same values last to the same names. -/
theorem ofList_eq_iff {l l' : List (String × Int64)} :
    ofList l = ofList l' ↔ ∀ x n, GivenLast l x n ↔ GivenLast l' x n := by
  simp only [← get?_ofList_iff]
  constructor
  · rintro h x n
    rw [h]
  · exact fun h => ext_get? fun x => Option.ext (h x)

/-- An environment that is built from a list of pairs, and in which more values are then stored, lists each name
    that was ever given exactly once, and no other name, in the order of the code points of the names, which is also
    the order of their bytes, each with the value that it was given last. What is read of the environment agrees with
    that list. Two environments are equal exactly if the same values were given last to the same names, in whatever
    order. -/
theorem history_listed (given sets : List (String × Int64)) :
    let e : Env := (ofList given).insertMany sets
    let history := given ++ sets
    (∀ x, (e.toList.map Prod.fst).count x = if x ∈ history.map Prod.fst then 1 else 0) ∧
    e.toList.Pairwise (fun p q => p.1 < q.1) ∧
    e.toList.Pairwise (fun p q => Text.bytes p.1 < Text.bytes q.1) ∧
    (∀ x n, (x, n) ∈ e.toList ↔ GivenLast history x n) ∧
    (∀ x n, GivenLast history x n → e.get x = n) ∧
    (∀ x, x ∉ history.map Prod.fst → e.get x = 0) ∧
    (∀ x, e.contains x ↔ x ∈ e.toList.map Prod.fst) ∧
    e.size = e.toList.length ∧
    ∀ given' sets', (ofList given').insertMany sets' = e ↔
      ∀ x n, GivenLast (given' ++ sets') x n ↔ GivenLast history x n := by
  intro e history
  have he : e = ofList history := (ofList_append given sets).symm
  rw [he]
  refine ⟨fun x => ?_, (ofList history).sorted, (ofList history).sorted.imp Text.lt_iff_bytes_lt.mp,
    fun x n => mem_toList_iff.trans get?_ofList_iff, fun x n h => ?_, fun x hx => ?_, fun x => mem_names_iff.symm, rfl,
    fun given' sets' => ?_⟩
  · simp only [(nodup_names _).count, mem_names_iff, contains_ofList_iff]
  · rw [get, get?_ofList_iff.mpr h]
    rfl
  · have hnone : (ofList history).get? x = none := by
      rw [← Option.not_isSome_iff_eq_none]
      exact mt contains_ofList_iff.mp hx
    rw [get, hnone]
    rfl
  · rw [← ofList_append]
    exact ofList_eq_iff

/-- The two last names are in another order by their UTF-16 units. -/
theorem history_listed_unicode :
    let e := (ofList [("😀", 1), ("b", 2)]).insertMany [("\uffff", 3), ("😀", 4)]
    let history := [("😀", 1), ("b", 2), ("\uffff", 3), ("😀", 4)]
    e.toList = [("b", 2), ("\uffff", 3), ("😀", 4)] ∧ GivenLast history "😀" 4 ∧ e.get "😀" = 4 ∧
      "é" ∉ history.map Prod.fst ∧ e.get "é" = 0 ∧ e = ofList [("\uffff", 3), ("😀", 4), ("b", 2)] := by
  intro e history
  obtain ⟨-, -, -, -, hget, hzero, -⟩ := history_listed [("😀", 1), ("b", 2)] [("\uffff", 3), ("😀", 4)]
  have hlast : GivenLast history "😀" 4 := ⟨[("😀", 1), ("b", 2), ("\uffff", 3)], [], rfl, by simp⟩
  have hnew : "é" ∉ history.map Prod.fst := by decide
  exact ⟨by decide, hlast, hget _ _ hlast, hnew, hzero _ hnew, by decide⟩

end Imp.Env
