import Mathlib
import WireQuery.Text.Utf8

namespace WireQuery.Utf8

/-- A character is one byte, or digits of sixty-four behind a mark that grows with their number. -/
theorem utf8EncodeChar_cases {c : Char} (hv : c.val.toNat = v) :
    v < 0x80 ∧ String.utf8EncodeChar c = [UInt8.ofNat v] ∨
    0x80 ≤ v ∧ v < 0x800 ∧ String.utf8EncodeChar c = [v / 64 + 192, v % 64 + 128].map UInt8.ofNat ∨
    0x800 ≤ v ∧ v < 0x10000 ∧
      String.utf8EncodeChar c = [v / 64 / 64 + 224, v / 64 % 64 + 128, v % 64 + 128].map UInt8.ofNat ∨
    0x10000 ≤ v ∧ v < 0x110000 ∧ String.utf8EncodeChar c =
      [v / 64 / 64 / 64 + 240, v / 64 / 64 % 64 + 128, v / 64 % 64 + 128, v % 64 + 128].map UInt8.ofNat := by
  have hbound : v < 0x110000 := by
    rcases c.valid with h | h
    · exact hv ▸ Nat.lt_trans h (by decide)
    · exact hv ▸ h.2
  unfold String.utf8EncodeChar
  dsimp only
  rw [hv]
  split
  · exact .inl ⟨by omega, rfl⟩
  · split
    · have hlead : v / 64 % 32 = v / 64 := by omega
      exact .inr (.inl ⟨by omega, by omega, by rw [hlead]; rfl⟩)
    · split
      · have hlead : v / 4096 % 16 = v / 64 / 64 := by omega
        exact .inr (.inr (.inl ⟨by omega, by omega, by rw [hlead]; rfl⟩))
      · have hlead : v / 262144 % 8 = v / 64 / 64 / 64 := by omega
        have hnext : v / 4096 = v / 64 / 64 := by omega
        exact .inr (.inr (.inr ⟨by omega, hbound, by rw [hlead, hnext]; rfl⟩))

theorem ofNat_cons_lt {a b : Nat} (ha : a < 256) (hb : b < 256) (s t : Bytes) :
    UInt8.ofNat a :: s < UInt8.ofNat b :: t ↔ a < b ∨ a = b ∧ s < t := by
  have hofNat : UInt8.ofNat a = UInt8.ofNat b ↔ a = b := by
    rw [← UInt8.toNat_inj, UInt8.toNat_ofNat', UInt8.toNat_ofNat']
    omega
  rw [List.cons_lt_cons_iff, UInt8.lt_iff_toNat_lt, hofNat, UInt8.toNat_ofNat', UInt8.toNat_ofNat',
    Nat.mod_eq_of_lt ha, Nat.mod_eq_of_lt hb]

theorem lt_iff_digits (m n : Nat) : m < n ↔ m / 64 < n / 64 ∨ m / 64 = n / 64 ∧ m % 64 < n % 64 := by
  omega

/-- The order of two characters decides that of the bytes that begin with them. -/
theorem utf8EncodeChar_append_lt {c d : Char} (h : c < d) (s t : Bytes) :
    String.utf8EncodeChar c ++ s < String.utf8EncodeChar d ++ t := by
  have h : c.val.toNat < d.val.toNat := h
  generalize hm : c.val.toNat = m at h
  generalize hn : d.val.toNat = n at h
  rcases utf8EncodeChar_cases hm with ⟨hm, he⟩ | ⟨_, hm, he⟩ | ⟨_, hm, he⟩ | ⟨_, hm, he⟩ <;>
    rcases utf8EncodeChar_cases hn with ⟨hn, hf⟩ | ⟨_, hn, hf⟩ | ⟨_, hn, hf⟩ | ⟨_, hn, hf⟩
  all_goals
    rw [he, hf]
    simp (disch := omega) only [List.map_cons, List.map_nil, List.cons_append, List.nil_append, ofNat_cons_lt]
    rw [lt_iff_digits m, lt_iff_digits (m / 64), lt_iff_digits (m / 64 / 64)] at h
    omega

theorem encode_eq_flatMap (s : String) : encode s = s.toList.flatMap String.utf8EncodeChar := by
  rw [encode, String.toUTF8_eq_toByteArray]
  conv => lhs; rw [← String.ofList_toList (s := s), String.toByteArray_ofList, List.utf8Encode]
  rw [List.toList_data_toByteArray]

/-- A smaller text has the smaller bytes. -/
theorem encode_lt {a b : String} (h : a < b) : encode a < encode b := by
  rw [encode_eq_flatMap, encode_eq_flatMap]
  have h := String.lt_iff_toList_lt.mp h
  generalize a.toList = s at h
  generalize b.toList = t at h
  induction s generalizing t with
  | nil =>
    cases t with
    | nil => contradiction
    | cons d t =>
      obtain ⟨x, xs, hd⟩ := List.exists_cons_of_ne_nil (String.utf8EncodeChar_ne_nil (c := d))
      rw [List.flatMap_nil, List.flatMap_cons, hd]
      exact List.nil_lt_cons x (xs ++ t.flatMap String.utf8EncodeChar)
  | cons c s ih =>
    cases t with
    | nil => contradiction
    | cons d t =>
      rw [List.flatMap_cons, List.flatMap_cons]
      rcases List.cons_lt_cons_iff.mp h with hc | ⟨rfl, hs⟩
      · exact utf8EncodeChar_append_lt hc _ _
      · exact List.append_left_lt (ih t hs)

end WireQuery.Utf8
