import WireQuery.Wire.Varint

namespace WireQuery.Hex

def digit (n : Nat) : Char := Nat.digitChar n

def encode : Bytes → List Char
  | [] => []
  | b :: r => digit (b.toNat / 16) :: digit (b.toNat % 16) :: encode r

def text (b : Bytes) : String := String.ofList (encode b)

def digitValue? (c : Char) : Option Nat :=
  if c.isDigit then some (c.toNat - '0'.toNat)
  else if 'a' ≤ c ∧ c ≤ 'f' then some (c.toNat - 'a'.toNat + 10)
  else if 'A' ≤ c ∧ c ≤ 'F' then some (c.toNat - 'A'.toNat + 10)
  else none

/-- Two digits a byte, either case. -/
def decode? : List Char → Option Bytes
  | [] => some []
  | [_] => none
  | a :: b :: r => do
    let high ← digitValue? a
    let low ← digitValue? b
    let rest ← decode? r
    some (UInt8.ofNat (16 * high + low) :: rest)

theorem digitValue?_digit (h : n < 16) : digitValue? (digit n) = some n := by
  have : ∀ i : Fin 16, digitValue? (digit i.val) = some i.val := by decide
  exact this ⟨n, h⟩

end WireQuery.Hex
