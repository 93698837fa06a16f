import WireQuery.Wire.Varint
import WireQuery.Text.Decimal

namespace WireQuery.Utf8

def encode (s : String) : Bytes := s.toUTF8.data.toList

def decode? (b : Bytes) : Option String := String.fromUTF8? b.toByteArray

theorem decode?_encode (s : String) : decode? (encode s) = some s := by
  have h : (encode s).toByteArray = s.toUTF8 := by
    apply ByteArray.ext
    rw [List.data_toByteArray, encode, Array.toArray_toList]
  rw [decode?, h, String.fromUTF8?, String.toUTF8_eq_toByteArray, dif_pos s.isValidUTF8]
  rfl

theorem eq_encode_of_decode? (h : decode? b = some s) : b = encode s := by
  unfold decode? String.fromUTF8? at h
  split at h
  · rw [Option.some.injEq] at h
    subst h
    simp [encode, String.toUTF8, String.fromUTF8, List.data_toByteArray]
  · contradiction

/-- Where bytes stop being text: `offset` good bytes, then `length` that begin no character, or an end too soon. -/
structure Fault where
  offset : Nat
  length : Option Nat
  deriving DecidableEq, Repr

def Fault.message (f : Fault) : String :=
  match f.length with
  | some n =>
    "invalid utf-8 sequence of " ++ Decimal.natText n ++ " bytes from index " ++ Decimal.natText f.offset
  | none => "incomplete utf-8 byte sequence from index " ++ Decimal.natText f.offset

def isTail (b : UInt8) : Bool := 0x80 ≤ b && b ≤ 0xBF

/-- The bytes that follow a first byte: how many, and the range of the first of them. -/
def tailOf? (b : UInt8) : Option (Nat × UInt8 × UInt8) :=
  if b < 0x80 then some (0, 0x80, 0xBF)
  else if 0xC2 ≤ b && b ≤ 0xDF then some (1, 0x80, 0xBF)
  else if b == 0xE0 then some (2, 0xA0, 0xBF)
  else if b == 0xED then some (2, 0x80, 0x9F)
  else if 0xE1 ≤ b && b ≤ 0xEF then some (2, 0x80, 0xBF)
  else if b == 0xF0 then some (3, 0x90, 0xBF)
  else if 0xF1 ≤ b && b ≤ 0xF3 then some (3, 0x80, 0xBF)
  else if b == 0xF4 then some (3, 0x80, 0x8F)
  else none

/-- Passes over `n` later bytes of a character of which `seen` are good. -/
def passTail : Nat → Nat → Bytes → Except (Option Nat) Bytes
  | 0, _, s => .ok s
  | _ + 1, _, [] => .error none
  | n + 1, seen, b :: r => if isTail b then passTail n (seen + 1) r else .error (some seen)

/-- Passes over one character; an error has the count of bytes to blame. -/
def passChar : Bytes → Except (Option Nat) Bytes
  | [] => .ok []
  | b :: r =>
    match tailOf? b with
    | none => .error (some 1)
    | some (0, _, _) => .ok r
    | some (n + 1, low, high) =>
      match r with
      | [] => .error none
      | c :: r => if low ≤ c && c ≤ high then passTail n 2 r else .error (some 1)

theorem passTail_length (h : passTail n k s = .ok r) : r.length ≤ s.length := by
  induction n generalizing k s with
  | zero =>
    simp only [passTail, Except.ok.injEq] at h
    simp [h]
  | succ n ih =>
    cases s with
    | nil => simp [passTail] at h
    | cons b s =>
      rw [passTail] at h
      split at h
      · have := ih h
        simp only [List.length_cons]
        omega
      · simp at h

theorem passChar_length (h : passChar (b :: s) = .ok r) : r.length < (b :: s).length := by
  simp only [passChar] at h
  split at h
  · simp at h
  · simp only [Except.ok.injEq] at h
    simp [h]
  · split at h
    · simp at h
    · split at h
      · have := passTail_length h
        simp only [List.length_cons]
        omega
      · simp at h

/-- The first fault at or after `offset`. -/
def faultFrom? (offset : Nat) (s : Bytes) : Option Fault :=
  match s with
  | [] => none
  | b :: t =>
    match h : passChar (b :: t) with
    | .error length => some ⟨offset, length⟩
    | .ok r =>
      have := Nat.le_of_lt_succ (passChar_length h)
      faultFrom? (offset + (t.length + 1 - r.length)) r
termination_by s.length

def fault? (s : Bytes) : Option Fault := faultFrom? 0 s

end WireQuery.Utf8
