import Imp.Json
import Imp.Proofs.Env.Lookup

/-! # One value of JSON

The fields of an object have no order of their own. Two values are the same if they differ in nothing but the
order in which their objects, at any depth, list the fields. A field is found by its name, so where the names
of an object differ from one another, looking into it does not depend on that order; and what loses nothing in
writing can be read back from every order. -/

namespace Imp.Json

mutual

/-- The values are one, whatever the order of the fields of an object. -/
inductive Same : Json → Json → Prop where
  | null : Same null null
  | bool (b : Bool) : Same (bool b) (bool b)
  | number (m : Int) (d : Nat) : Same (number m d) (number m d)
  | string (s : String) : Same (string s) (string s)
  | array {items items' : List Json} (h : SameItems items items') : Same (array items) (array items')
  | object {fields fields' listed : List (String × Json)} (h : SameFields fields fields')
      (order : fields'.Perm listed) : Same (object fields) (object listed)

/-- The items are the same, one by one. -/
inductive SameItems : List Json → List Json → Prop where
  | nil : SameItems [] []
  | cons {j k : Json} {items items' : List Json} (h : Same j k) (rest : SameItems items items') :
      SameItems (j :: items) (k :: items')

/-- The fields have the same names and the same values, one by one. -/
inductive SameFields : List (String × Json) → List (String × Json) → Prop where
  | nil : SameFields [] []
  | cons {x : String} {j k : Json} {fields fields' : List (String × Json)} (h : Same j k)
      (rest : SameFields fields fields') : SameFields ((x, j) :: fields) ((x, k) :: fields')

end

mutual

theorem Same.refl : ∀ j : Json, j.Same j
  | .null => .null
  | .bool b => .bool b
  | .number m d => .number m d
  | .string s => .string s
  | .array items => .array (SameItems.refl items)
  | .object fields => .object (SameFields.refl fields) (.refl fields)

theorem SameItems.refl : ∀ items : List Json, SameItems items items
  | [] => .nil
  | j :: items => .cons (Same.refl j) (SameItems.refl items)

theorem SameFields.refl : ∀ fields : List (String × Json), SameFields fields fields
  | [] => .nil
  | (_, j) :: fields => .cons (Same.refl j) (SameFields.refl fields)

end

/-! ### Looking into a value -/

variable {fields fields' listed : List (String × Json)} {j v w : Json} {k : String}

theorem SameFields.names (h : SameFields fields fields') : fields'.map Prod.fst = fields.map Prod.fst := by
  induction fields generalizing fields' with
  | nil =>
    cases h
    rfl
  | cons f fields ih =>
    cases h with
    | cons _ rest => rw [List.map_cons, List.map_cons, ih rest]

theorem SameFields.exists_mem (h : SameFields fields fields') (hv : (k, v) ∈ fields) :
    ∃ w, (k, w) ∈ fields' ∧ v.Same w := by
  induction fields generalizing fields' with
  | nil => cases hv
  | cons f fields ih =>
    cases h with
    | cons hf rest =>
      rcases List.mem_cons.mp hv with heq | hv
      · cases heq
        exact ⟨_, List.mem_cons_self, hf⟩
      · obtain ⟨w, hw, hsame⟩ := ih rest hv
        exact ⟨w, List.mem_cons_of_mem _ hw, hsame⟩

/-- A field of an object is found in every order of the fields. -/
theorem Same.field? (h : (Json.object fields).Same j) (hnames : (fields.map Prod.fst).Nodup) (k : String)
    (hv : (k, v) ∈ fields) : ∃ w, j.field? k = some w ∧ v.Same w := by
  cases h with
  | object h order =>
    obtain ⟨w, hw, hsame⟩ := h.exists_mem hv
    have hlisted := (order.map Prod.fst).nodup_iff.mp (h.names ▸ hnames)
    exact ⟨w, (lookup_eq_some_iff_mem hlisted).mpr (order.mem_iff.mp hw), hsame⟩

theorem Same.read_field {α : Type} {read : Json → Option α} {a : α} (h : (Json.object fields).Same j)
    (hnames : (fields.map Prod.fst).Nodup) (k : String) (hv : (k, v) ∈ fields)
    (hread : ∀ w, v.Same w → read w = some a) : (j.field? k >>= read) = some a := by
  obtain ⟨w, hw, hsame⟩ := h.field? hnames k hv
  rw [hw]
  exact hread w hsame

theorem Same.variant? (h : (Json.object [(k, v)]).Same j) : ∃ w, j.variant? = some (k, w) ∧ v.Same w := by
  cases h with
  | object h order =>
    cases h with
    | cons hv rest =>
      cases rest
      rw [List.perm_singleton.mp order.symm]
      exact ⟨_, rfl, hv⟩

theorem Same.pair? {v' : Json} (h : (Json.array [v, v']).Same j) :
    ∃ w w', j.pair? = some (w, w') ∧ v.Same w ∧ v'.Same w' := by
  cases h with
  | array h =>
    cases h with
    | cons hv rest =>
      cases rest with
      | cons hv' rest =>
        cases rest
        exact ⟨_, _, rfl, hv, hv'⟩

theorem Same.string? {s : String} (h : (Json.string s).Same j) : j.string? = some s := by
  cases h
  rfl

theorem Same.int? {n : Int} (h : (int n).Same j) : j.int? = some n := by
  cases h
  rfl

/-! ### Writing without loss -/

/-- Writing keeps everything, and the reader takes the fields of objects in any order. -/
structure Lossless {α : Type} (write : α → Json) (read : Json → Option α) : Prop where
  /-- Reading gives back what was written. -/
  read_write (a : α) : read (write a) = some a
  /-- The order of the fields does not matter to the reader. -/
  read_of_same {a : α} {j : Json} (h : (write a).Same j) : read j = some a
  /-- Different things are written as different values. -/
  same_iff (a b : α) : (write a).Same (write b) ↔ a = b

theorem Lossless.of_read {α : Type} {write : α → Json} {read : Json → Option α}
    (h : ∀ a j, (write a).Same j → read j = some a) : Lossless write read where
  read_write a := h a _ (.refl _)
  read_of_same := h _ _
  same_iff a b := by
    constructor
    · intro hsame
      exact Option.some.inj ((h a _ hsame).symm.trans (h b _ (.refl _)))
    · rintro rfl
      exact .refl _

end Imp.Json
