/-! # Environments

The variables of a running program. A name that was never stored reads as zero. The bindings are kept
in the order of their names, by code points, and each name has at most one: so two environments with
the same bindings are equal, however they came about. -/

namespace Imp

/-- Bindings of names to values, ascending by name. -/
structure Env where
  bindings : List (String × Int64)
  sorted : bindings.Pairwise (fun a b => a.1 < b.1)
deriving DecidableEq

namespace Env

/-- No bindings. -/
def empty : Env := ⟨[], .nil⟩

instance : Inhabited Env := ⟨empty⟩

/-- Stores a value in bindings that ascend by name. -/
def store (x : String) (n : Int64) : List (String × Int64) → List (String × Int64)
  | [] => [(x, n)]
  | (y, m) :: r =>
    if x < y then (x, n) :: (y, m) :: r
    else if x = y then (x, n) :: r
    else (y, m) :: store x n r

/-- Every binding is the stored one or one from before. -/
theorem mem_store {x : String} {n : Int64} {l : List (String × Int64)} {p : String × Int64}
    (h : p ∈ store x n l) : p = (x, n) ∨ p ∈ l := by
  induction l with
  | nil => simpa [store] using h
  | cons q r ih =>
    simp only [store] at h
    split at h
    · simpa using h
    · split at h
      · rcases List.mem_cons.mp h with h | h
        · exact Or.inl h
        · exact Or.inr (List.mem_cons_of_mem _ h)
      · rcases List.mem_cons.mp h with h | h
        · exact Or.inr (h ▸ List.mem_cons_self)
        · exact (ih h).imp id (List.mem_cons_of_mem _)

theorem sorted_store (x : String) (n : Int64) {l : List (String × Int64)}
    (h : l.Pairwise (fun a b => a.1 < b.1)) : (store x n l).Pairwise (fun a b => a.1 < b.1) := by
  induction l with
  | nil => simp [store]
  | cons q r ih =>
    obtain ⟨hq, hr⟩ := List.pairwise_cons.mp h
    simp only [store]
    split
    · next hlt =>
      refine List.pairwise_cons.mpr ⟨fun p hp => ?_, h⟩
      rcases List.mem_cons.mp hp with rfl | hp
      · exact hlt
      · exact String.lt_trans hlt (hq p hp)
    · next hlt =>
      split
      · next heq =>
        subst heq
        exact List.pairwise_cons.mpr ⟨hq, hr⟩
      · next hne =>
        refine List.pairwise_cons.mpr ⟨fun p hp => ?_, ih hr⟩
        rcases mem_store hp with rfl | hp
        · exact Std.lt_of_le_of_ne (String.not_lt.mp hlt) (Ne.symm hne)
        · exact hq p hp

/-- Stores a value under a name, in place of one that is there. -/
def insert (e : Env) (x : String) (n : Int64) : Env := ⟨store x n e.bindings, sorted_store x n e.sorted⟩

/-- The value that is bound to a name. -/
def get? (e : Env) (x : String) : Option Int64 := e.bindings.lookup x

/-- The value of a variable: zero if nothing is bound to it. -/
def get (e : Env) (x : String) : Int64 := (e.get? x).getD 0

/-- Whether a name is bound. -/
def contains (e : Env) (x : String) : Bool := (e.get? x).isSome

/-- The number of bindings. -/
def size (e : Env) : Nat := e.bindings.length

def isEmpty (e : Env) : Bool := e.bindings.isEmpty

/-- The bindings in the order of their names. -/
def toList (e : Env) : List (String × Int64) := e.bindings

/-- Stores values one after another, so that of several for one name the last remains. -/
def insertMany (e : Env) (l : List (String × Int64)) : Env := l.foldl (fun e p => e.insert p.1 p.2) e

/-- The environment with these bindings, where a later one replaces an earlier one of the same name. -/
def ofList (l : List (String × Int64)) : Env := empty.insertMany l

end Env

end Imp
