import WireQuery.Schema.Scalar
import WireQuery.Number.Numeral

namespace WireQuery.Literal

/-- A whole number; the minus sign only where there are negative numbers. -/
def int? (signed : Bool) (s : List Char) : Option Int :=
  let (negative, r) := Decimal.readSign s
  if r.isEmpty || !r.all Char.isDigit || (negative && !signed) then none
  else
    let n : Int := Decimal.value r
    some (if negative then -n else n)

def lower (s : List Char) : List Char := s.map Char.toLower

/-- A real number as the nearest bit pattern of a format. -/
def real? (f : Binary.Format) (s : List Char) : Option Nat :=
  let (negative, r) := Decimal.readSign s
  let magnitude :=
    if lower r = "inf".toList || lower r = "infinity".toList then some f.infinity
    else if lower r = "nan".toList then some (f.infinity + f.implicitBit / 2)
    else match Numeral.read? r with
      | some (n, []) => some (n.round f)
      | _ => none
  magnitude.map (Binary.signed f negative)

def isOctal (b : UInt8) : Bool := 48 ≤ b && b ≤ 55

def hexDigit? (b : UInt8) : Option Nat :=
  if 48 ≤ b && b ≤ 57 then some (b.toNat - 48)
  else if 97 ≤ b && b ≤ 102 then some (b.toNat - 87)
  else if 65 ≤ b && b ≤ 70 then some (b.toNat - 55)
  else none

/-- The byte that a letter or mark after a backslash stands for. -/
def simpleEscape? : Char → Option UInt8
  | 'a' => some 7
  | 'b' => some 8
  | 't' => some 9
  | 'n' => some 10
  | 'v' => some 11
  | 'f' => some 12
  | 'r' => some 13
  | '\\' => some 92
  | '?' => some 63
  | '\'' => some 39
  | '"' => some 34
  | _ => none

def octal (digits : Bytes) : UInt8 := digits.foldl (fun n b => 8 * n + (b - 48)) 0

/-- Up to three octal digits at the front. -/
def octalRun (s : Bytes) : Bytes := (s.take 3).takeWhile isOctal

/-- Two hexadecimal digits, or a plus sign and one. -/
def hexPair? (c d : UInt8) : Option UInt8 := do
  let high ← if c = 43 then some 0 else hexDigit? c
  let low ← hexDigit? d
  some (UInt8.ofNat (16 * high + low))

def isHexMark (b : UInt8) : Bool := b = 120 || b = 88

/-- After a backslash comes a mark, one to three octal digits, or an x and two places of a hexadecimal number. -/
def unescape? (s : Bytes) : Option Bytes :=
  match s with
  | [] => some []
  | 92 :: r =>
    let digits := octalRun r
    if digits.isEmpty then
      match r with
      | [] => none
      | b :: r =>
        if isHexMark b then
          match r with
          | c :: d :: r => (hexPair? c d).bind (fun e => (unescape? r).map (e :: ·))
          | _ => none
        else (simpleEscape? (Char.ofNat b.toNat)).bind (fun e => (unescape? r).map (e :: ·))
    else (unescape? (r.drop digits.length)).map (octal digits :: ·)
  | b :: r => (unescape? r).map (b :: ·)
termination_by s.length
decreasing_by all_goals simp_wf; all_goals omega

end WireQuery.Literal

namespace WireQuery

namespace ScalarKind

def isSigned : ScalarKind → Bool
  | uint32 | uint64 | fixed32 | fixed64 => false
  | _ => true

/-- The whole numbers of a kind, which has some. -/
def ofInt? (k : ScalarKind) (i : Int) : Option Scalar :=
  let within (low high : Int) (s : Scalar) := if low ≤ i ∧ i ≤ high then some s else none
  let int32 := within (-2147483648) 2147483647
  let int64 := within (-9223372036854775808) 9223372036854775807
  let uint32 := within 0 4294967295
  let uint64 := within 0 18446744073709551615
  match k with
  | .int32 => int32 (.int32 (Int32.ofInt i))
  | .int64 => int64 (.int64 (Int64.ofInt i))
  | .uint32 => uint32 (.uint32 (UInt32.ofNat i.toNat))
  | .uint64 => uint64 (.uint64 (UInt64.ofNat i.toNat))
  | .sint32 => int32 (.sint32 (Int32.ofInt i))
  | .sint64 => int64 (.sint64 (Int64.ofInt i))
  | .fixed32 => uint32 (.fixed32 (UInt32.ofNat i.toNat))
  | .fixed64 => uint64 (.fixed64 (UInt64.ofNat i.toNat))
  | .sfixed32 => int32 (.sfixed32 (Int32.ofInt i))
  | .sfixed64 => int64 (.sfixed64 (Int64.ofInt i))
  | _ => none

def parse? (k : ScalarKind) (s : String) : Option Scalar :=
  match k with
  | .double => (Literal.real? Binary.double s.toList).map (.double ∘ UInt64.ofNat)
  | .float => (Literal.real? Binary.single s.toList).map (.float ∘ UInt32.ofNat)
  | .bool => if s = "true" then some (.bool true) else if s = "false" then some (.bool false) else none
  | .string => some (.string s)
  | .bytes => (Literal.unescape? (Utf8.encode s)).map .bytes
  | k => (Literal.int? k.isSigned s.toList).bind k.ofInt?

end ScalarKind

end WireQuery
