/-!
Numbers as bytes: seven bits a byte with the least significant first, or a fixed count of bytes.
-/

namespace WireQuery

abbrev Bytes := List UInt8

namespace Wire

/-- All bytes but the last have the high bit set. -/
def writeVarint (n : Nat) : Bytes :=
  if n < 128 then [UInt8.ofNat n] else UInt8.ofNat (n % 128 + 128) :: writeVarint (n / 128)
termination_by n

/-- Reads at most `k` bytes; the last one allowed holds one bit. -/
def readVarintIn : Nat → Bytes → Option (Nat × Bytes)
  | 0, _ => none
  | _ + 1, [] => none
  | k + 1, b :: r =>
    if b.toNat < 128 then
      if k = 0 ∧ 1 < b.toNat then none else some (b.toNat, r)
    else (readVarintIn k r).map (fun (v, r) => (b.toNat - 128 + 128 * v, r))

/-- Ten bytes hold sixty-four bits. -/
def readVarint (s : Bytes) : Option (Nat × Bytes) := readVarintIn 10 s

theorem readVarintIn_length (h : readVarintIn k s = some (v, r)) : r.length < s.length := by
  induction k generalizing s v r with
  | zero => simp [readVarintIn] at h
  | succ k ih =>
    cases s with
    | nil => simp [readVarintIn] at h
    | cons b s =>
      rw [readVarintIn] at h
      split at h
      · split at h
        · simp at h
        · simp only [Option.some.injEq, Prod.mk.injEq] at h
          simp [h.2]
      · obtain ⟨⟨w, t⟩, ht, he⟩ := Option.map_eq_some_iff.mp h
        have := ih ht
        simp only [Prod.mk.injEq] at he
        rw [← he.2]
        simp only [List.length_cons]
        omega

theorem readVarint_length (h : readVarint s = some (v, r)) : r.length < s.length :=
  readVarintIn_length h

/-- The least significant byte first. -/
def writeFixed : Nat → Nat → Bytes
  | 0, _ => []
  | w + 1, n => UInt8.ofNat (n % 256) :: writeFixed w (n / 256)

def readFixed : Nat → Bytes → Option (Nat × Bytes)
  | 0, s => some (0, s)
  | _ + 1, [] => none
  | w + 1, b :: r => (readFixed w r).map (fun (v, r) => (b.toNat + 256 * v, r))

theorem readFixed_length (h : readFixed w s = some (v, r)) : r.length + w = s.length := by
  induction w generalizing s v r with
  | zero =>
    simp only [readFixed, Option.some.injEq, Prod.mk.injEq] at h
    simp [h.2]
  | succ w ih =>
    cases s with
    | nil => simp [readFixed] at h
    | cons b s =>
      obtain ⟨⟨u, t⟩, ht, he⟩ := Option.map_eq_some_iff.mp h
      have := ih ht
      simp only [Prod.mk.injEq] at he
      rw [← he.2]
      simp only [List.length_cons]
      omega

/-- The first `n` bytes and the rest. -/
def take? : Nat → Bytes → Option (Bytes × Bytes)
  | 0, s => some ([], s)
  | _ + 1, [] => none
  | n + 1, b :: s => (take? n s).map (fun (t, r) => (b :: t, r))

theorem eq_append_of_take? (h : take? n s = some (t, r)) : s = t ++ r ∧ t.length = n := by
  induction n generalizing s t r with
  | zero =>
    simp only [take?, Option.some.injEq, Prod.mk.injEq] at h
    obtain ⟨rfl, rfl⟩ := h
    simp
  | succ n ih =>
    cases s with
    | nil => simp [take?] at h
    | cons b s =>
      obtain ⟨⟨u, q⟩, hu, he⟩ := Option.map_eq_some_iff.mp h
      obtain ⟨hs, hl⟩ := ih hu
      simp only [Prod.mk.injEq] at he
      obtain ⟨rfl, rfl⟩ := he
      simp [hs, hl]

end Wire

end WireQuery
