import WireQuery.Wire.Field
import WireQuery.Number.Binary
import WireQuery.Text.Utf8

namespace WireQuery

inductive ScalarKind where
  | double
  | float
  | int32
  | int64
  | uint32
  | uint64
  | sint32
  | sint64
  | fixed32
  | fixed64
  | sfixed32
  | sfixed64
  | bool
  | string
  | bytes
  deriving DecidableEq, Repr

def ScalarKind.text : ScalarKind → String
  | double => "double"
  | float => "float"
  | int32 => "int32"
  | int64 => "int64"
  | uint32 => "uint32"
  | uint64 => "uint64"
  | sint32 => "sint32"
  | sint64 => "sint64"
  | fixed32 => "fixed32"
  | fixed64 => "fixed64"
  | sfixed32 => "sfixed32"
  | sfixed64 => "sfixed64"
  | bool => "bool"
  | string => "string"
  | bytes => "bytes"

/-- A value that is not a message, under the kind it was declared with. Reals are bit patterns. -/
inductive Scalar where
  | double (bits : UInt64)
  | float (bits : UInt32)
  | int32 (v : Int32)
  | int64 (v : Int64)
  | uint32 (v : UInt32)
  | uint64 (v : UInt64)
  | sint32 (v : Int32)
  | sint64 (v : Int64)
  | fixed32 (v : UInt32)
  | fixed64 (v : UInt64)
  | sfixed32 (v : Int32)
  | sfixed64 (v : Int64)
  | bool (b : Bool)
  | string (s : String)
  | bytes (b : Bytes)
  | enum (number : Int32)
  deriving DecidableEq, Repr

namespace ScalarKind

def zero : ScalarKind → Scalar
  | double => .double 0
  | float => .float 0
  | int32 => .int32 0
  | int64 => .int64 0
  | uint32 => .uint32 0
  | uint64 => .uint64 0
  | sint32 => .sint32 0
  | sint64 => .sint64 0
  | fixed32 => .fixed32 0
  | fixed64 => .fixed64 0
  | sfixed32 => .sfixed32 0
  | sfixed64 => .sfixed64 0
  | bool => .bool false
  | string => .string ""
  | bytes => .bytes []

def wireType : ScalarKind → Wire.WireType
  | double | fixed64 | sfixed64 => .fixed64
  | float | fixed32 | sfixed32 => .fixed32
  | string | bytes => .bytes
  | _ => .varint

end ScalarKind

/-- Integers of either sign on the even and odd numbers. -/
def zigzag (i : Int) : Nat := if 0 ≤ i then 2 * i.toNat else 2 * (-i).toNat - 1

def unzigzag (n : Nat) : Int := if n % 2 = 0 then n / 2 else -(n / 2 : Nat) - 1

theorem unzigzag_zigzag (i : Int) : unzigzag (zigzag i) = i := by
  unfold unzigzag zigzag
  split <;> split <;> omega

/-- A signed number of thirty-two bits is written with sixty-four. -/
def extend (v : Int32) : UInt64 := v.toInt64.toUInt64

namespace Scalar

/-- No kind of this list is the kind of an enum value. -/
def kind? : Scalar → Option ScalarKind
  | double _ => some .double
  | float _ => some .float
  | int32 _ => some .int32
  | int64 _ => some .int64
  | uint32 _ => some .uint32
  | uint64 _ => some .uint64
  | sint32 _ => some .sint32
  | sint64 _ => some .sint64
  | fixed32 _ => some .fixed32
  | fixed64 _ => some .fixed64
  | sfixed32 _ => some .sfixed32
  | sfixed64 _ => some .sfixed64
  | bool _ => some .bool
  | string _ => some .string
  | bytes _ => some .bytes
  | enum _ => none

def payload : Scalar → Wire.Payload
  | double b => .fixed64 b
  | float b => .fixed32 b
  | int32 v => .varint (extend v)
  | int64 v => .varint v.toUInt64
  | uint32 v => .varint v.toUInt64
  | uint64 v => .varint v
  | sint32 v => .varint (UInt64.ofNat (zigzag v.toInt))
  | sint64 v => .varint (UInt64.ofNat (zigzag v.toInt))
  | fixed32 v => .fixed32 v
  | fixed64 v => .fixed64 v
  | sfixed32 v => .fixed32 v.toUInt32
  | sfixed64 v => .fixed64 v.toUInt64
  | bool b => .varint (if b then 1 else 0)
  | string s => .bytes (Utf8.encode s)
  | bytes b => .bytes b
  | enum n => .varint (extend n)

/-- Equal as a number where it is one: zeros of either sign are equal, and nan equals nothing. -/
def same : Scalar → Scalar → Bool
  | double a, double b => Binary.same Binary.double a.toNat b.toNat
  | float a, float b => Binary.same Binary.single a.toNat b.toNat
  | a, b => a = b

end Scalar

/-- Narrow kinds keep the low bits of a wide varint. -/
def ScalarKind.read? : ScalarKind → Wire.Payload → Option Scalar
  | .double, .fixed64 v => some (.double v)
  | .float, .fixed32 v => some (.float v)
  | .int32, .varint v => some (.int32 v.toUInt32.toInt32)
  | .int64, .varint v => some (.int64 v.toInt64)
  | .uint32, .varint v => some (.uint32 v.toUInt32)
  | .uint64, .varint v => some (.uint64 v)
  | .sint32, .varint v => some (.sint32 (Int32.ofInt (unzigzag v.toUInt32.toNat)))
  | .sint64, .varint v => some (.sint64 (Int64.ofInt (unzigzag v.toNat)))
  | .fixed32, .fixed32 v => some (.fixed32 v)
  | .fixed64, .fixed64 v => some (.fixed64 v)
  | .sfixed32, .fixed32 v => some (.sfixed32 v.toInt32)
  | .sfixed64, .fixed64 v => some (.sfixed64 v.toInt64)
  | .bool, .varint v => some (.bool (v != 0))
  | .string, .bytes b => (Utf8.decode? b).map .string
  | .bytes, .bytes b => some (.bytes b)
  | _, _ => none

def readEnum? : Wire.Payload → Option Scalar
  | .varint v => some (.enum v.toUInt32.toInt32)
  | _ => none

end WireQuery
