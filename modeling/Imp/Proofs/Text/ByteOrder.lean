/-! # The order of texts and of their bytes

Texts are ordered by code points: the first difference decides, and the beginning of a text stands in front of it. In
UTF-8 the first byte of a character shows how many follow, and a character with more bytes has the larger code
point; the bytes of characters with equally many are the digits of their code points, the highest first. So where
two texts differ first, their bytes differ first as well, and in the same sense. -/

namespace Imp.Text

/-- The bytes of a text in UTF-8. -/
def bytes (s : String) : List UInt8 := s.toUTF8.data.toList

theorem bytes_eq_flatMap (s : String) : bytes s = s.toList.flatMap String.utf8EncodeChar := by
  rw [bytes, String.toUTF8_eq_toByteArray, ← String.utf8Encode_toList, List.utf8Encode, List.toList_data_toByteArray]

/-! ### Digits -/

/-- Bytes given as numbers are compared as these numbers. -/
theorem ofNat_cons_lt_iff {a b : Nat} (ha : a < 256) (hb : b < 256) {u v : List UInt8} :
    UInt8.ofNat a :: u < UInt8.ofNat b :: v ↔ a < b ∨ a = b ∧ u < v := by
  have hmod : a % 2 ^ 8 = a ∧ b % 2 ^ 8 = b := ⟨Nat.mod_eq_of_lt ha, Nat.mod_eq_of_lt hb⟩
  rw [List.cons_lt_cons_iff, UInt8.lt_iff_toNat_lt, ← UInt8.toNat_inj, UInt8.toNat_ofNat', UInt8.toNat_ofNat',
    hmod.1, hmod.2]

/-- A way to write numbers below a bound as bytes, with a first byte from `a` up to `b`: what is written for the
    smaller of two numbers stands in front, whatever stands behind them. -/
structure Ordered (form : Nat → List UInt8) (bound a b : Nat) : Prop where
  lt : ∀ m n, m < n → n < bound → ∀ u v, form m ++ u < form n ++ v
  first : ∀ n, n < bound → ∃ k r, form n = UInt8.ofNat k :: r ∧ a ≤ k ∧ k < b

namespace Ordered

variable {f g : Nat → List UInt8} {bound a b : Nat}

theorem single {g : Nat → Nat} (hg : ∀ n, n < bound → g n = n + a) (h : a + bound ≤ 256) :
    Ordered (fun n => [UInt8.ofNat (g n)]) bound a (a + bound) where
  lt := fun m n hmn hn u v => by
    simp only [hg n hn, hg m (Nat.lt_trans hmn hn), List.singleton_append]
    exact (ofNat_cons_lt_iff (by omega) (by omega)).mpr (Or.inl (by omega))
  first := fun n hn => ⟨n + a, [], by rw [hg n hn], by omega, by omega⟩

theorem single_mod (bound a : Nat) (h : a + bound ≤ 256) :
    Ordered (fun n => [UInt8.ofNat (n % bound + a)]) bound a (a + bound) :=
  single (fun n hn => by rw [Nat.mod_eq_of_lt hn]) h

/-- One more digit behind the others. -/
theorem digit (h : Ordered f bound a b) :
    Ordered (fun n => f (n / 64) ++ [UInt8.ofNat (n % 64 + 128)]) (bound * 64) a b where
  lt := fun m n hmn hn u v => by
    simp only [List.append_assoc, List.singleton_append]
    by_cases hdiv : m / 64 = n / 64
    · rw [hdiv]
      exact List.append_left_lt ((ofNat_cons_lt_iff (by omega) (by omega)).mpr (Or.inl (by omega)))
    · exact h.lt _ _ (by omega) (by omega) _ _
  first := fun n hn => by
    obtain ⟨k, r, hf, hk⟩ := h.first (n / 64) (by omega)
    exact ⟨k, r ++ _, by rw [hf]; rfl, hk⟩

/-- The smaller numbers in the one way, with smaller first bytes, and the others in the other way. -/
theorem orElse {a' b' : Nat} (mid : Nat) (hf : Ordered f (mid + 1) a b) (hg : Ordered g bound a' b')
    (hab : a ≤ a' ∧ b ≤ a' ∧ b ≤ b' ∧ b' ≤ 256) : Ordered (fun n => if n ≤ mid then f n else g n) bound a b' where
  lt := fun m n hmn hn u v => by
    by_cases hle : n ≤ mid
    · rw [if_pos (Nat.le_trans (Nat.le_of_lt hmn) hle), if_pos hle]
      exact hf.lt m n hmn (Nat.lt_succ_of_le hle) u v
    · rw [if_neg hle]
      by_cases hle' : m ≤ mid
      · obtain ⟨k, r, hfm, hk⟩ := hf.first m (Nat.lt_succ_of_le hle')
        obtain ⟨k', r', hgn, hk'⟩ := hg.first n hn
        rw [if_pos hle', hfm, hgn]
        exact (ofNat_cons_lt_iff (by omega) (by omega)).mpr (Or.inl (by omega))
      · rw [if_neg hle']
        exact hg.lt m n hmn hn u v
  first := fun n hn => by
    by_cases hle : n ≤ mid
    · obtain ⟨k, r, hfn, hk⟩ := hf.first n (Nat.lt_succ_of_le hle)
      exact ⟨k, r, by rw [if_pos hle, hfn], hk.1, by omega⟩
    · obtain ⟨k, r, hgn, hk⟩ := hg.first n hn
      exact ⟨k, r, by rw [if_neg hle, hgn], by omega, hk.2⟩

end Ordered

/-! ### Characters -/

theorem encode_append_lt {c d : Char} (h : c < d) (u v : List UInt8) :
    String.utf8EncodeChar c ++ u < String.utf8EncodeChar d ++ v := by
  have hlt : c.val.toNat < d.val.toNat := h
  have hmax : d.val.toNat < 0x200000 := by
    rcases d.valid with hv | ⟨-, hv⟩
    · exact Nat.lt_trans hv (by decide)
    · exact Nat.lt_trans hv (by decide)
  -- A character takes one, two, three or four bytes, by the size of its code point.
  have h1 : Ordered (fun n => [UInt8.ofNat n]) 0x80 0 0x80 := .single (g := id) (fun n _ => rfl) (by decide)
  have h2 := (Ordered.single_mod 0x20 0xc0 (by decide)).digit
  have h3 := (Ordered.single_mod 0x10 0xe0 (by decide)).digit.digit
  have h4 := (Ordered.single_mod 0x08 0xf0 (by decide)).digit.digit.digit
  have h34 := Ordered.orElse 0xffff h3 h4 (by decide)
  have h24 := Ordered.orElse 0x7ff h2 h34 (by decide)
  have h14 := Ordered.orElse 0x7f h1 h24 (by decide)
  have hall := h14.lt _ _ hlt hmax u v
  simp only [Nat.div_div_eq_div_mul, List.append_assoc] at hall
  exact hall

/-! ### Texts -/

theorem flatMap_encode_lt {l l' : List Char} (h : l < l') :
    l.flatMap String.utf8EncodeChar < l'.flatMap String.utf8EncodeChar := by
  induction h with
  | @nil c l =>
    rw [List.flatMap_nil, List.flatMap_cons]
    obtain ⟨b, r, hb⟩ := List.exists_cons_of_ne_nil (String.utf8EncodeChar_ne_nil (c := c))
    rw [hb]
    exact List.nil_lt_cons _ _
  | rel h => exact encode_append_lt h _ _
  | cons _ ih => exact List.append_left_lt ih

/-- Texts are in the order of their code points exactly if their bytes are in order. -/
theorem lt_iff_bytes_lt {s t : String} : s < t ↔ bytes s < bytes t := by
  have mono : ∀ {s t : String}, s < t → bytes s < bytes t := fun {s t} h => by
    rw [bytes_eq_flatMap, bytes_eq_flatMap]
    exact flatMap_encode_lt h
  refine ⟨mono, fun h => String.not_le.mp fun hle => ?_⟩
  rcases Decidable.em (t < s) with hlt | hge
  · exact List.lt_asymm h (mono hlt)
  · rw [String.le_antisymm hle (String.not_lt.mp hge)] at h
    exact List.lt_irrefl _ h

end Imp.Text
