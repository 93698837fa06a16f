import Mathlib
import WireQuery.Wire.Field

namespace WireQuery.Wire

theorem readVarintIn_write (h : n < 2 * 128 ^ k) :
    readVarintIn (k + 1) (writeVarint n ++ r) = some (n, r) := by
  induction k generalizing n with
  | zero =>
    have hn : n < 2 := by simpa using h
    rw [writeVarint, if_pos (by omega)]
    have : (UInt8.ofNat n).toNat = n := by simp [UInt8.toNat_ofNat']; omega
    simp only [List.cons_append, List.nil_append, readVarintIn, this]
    rw [if_pos (by omega), if_neg (by omega)]
  | succ k ih =>
    rw [writeVarint]
    split
    · have : (UInt8.ofNat n).toNat = n := by simp [UInt8.toNat_ofNat']; omega
      simp only [List.cons_append, List.nil_append, readVarintIn, this]
      rw [if_pos (by omega), if_neg (by omega)]
    · have hb : (UInt8.ofNat (n % 128 + 128)).toNat = n % 128 + 128 := by
        simp [UInt8.toNat_ofNat']; omega
      have hd : n / 128 < 2 * 128 ^ k := by
        rw [Nat.pow_succ] at h
        omega
      rw [List.cons_append, readVarintIn, if_neg (by omega), ih hd, hb]
      simp only [Option.map_some, Option.some.injEq, Prod.mk.injEq, and_true]
      omega

theorem readVarint_write (h : n < 2 ^ 64) : readVarint (writeVarint n ++ r) = some (n, r) :=
  readVarintIn_write (by simpa using h)

theorem readFixed_write (h : n < 256 ^ w) : readFixed w (writeFixed w n ++ r) = some (n, r) := by
  induction w generalizing n with
  | zero =>
    have : n = 0 := by simpa using h
    simp [writeFixed, readFixed, this]
  | succ w ih =>
    have hb : (UInt8.ofNat (n % 256)).toNat = n % 256 := by simp [UInt8.toNat_ofNat']
    have hd : n / 256 < 256 ^ w := by
      rw [Nat.pow_succ] at h
      omega
    rw [writeFixed, List.cons_append, readFixed, ih hd, hb]
    simp only [Option.map_some, Option.some.injEq, Prod.mk.injEq, and_true]
    omega

theorem take?_append (b r : Bytes) : take? b.length (b ++ r) = some (b, r) := by
  induction b with
  | nil => rfl
  | cons x b ih => simp [take?, ih]

theorem readKey_write (hn : 0 < n) (hl : n < 2 ^ 29) (t : WireType) (r : Bytes) :
    readKey (writeKey n t ++ r) = some (n, t, r) := by
  have ht := t.code_lt
  have hd : (8 * n + t.code) / 8 = n := by omega
  have hm : (8 * n + t.code) % 8 = t.code := by omega
  have hs : 8 * n + t.code < UInt32.size := by
    rw [UInt32.size]
    omega
  rw [readKey, writeKey, readVarint_write (by omega)]
  simp only [hd, hm, WireType.ofCode?_code, Option.map_some]
  rw [if_pos ⟨hs, hn⟩]

theorem readBytes_write (h : b.length < 2 ^ 64) : readBytes (writeBytes b ++ r) = some (b, r) := by
  rw [readBytes, writeBytes, List.append_assoc, readVarint_write h]
  exact take?_append b r

end WireQuery.Wire
