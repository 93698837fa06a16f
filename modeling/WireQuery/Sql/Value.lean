import WireQuery.Extract.Walk
import WireQuery.Number.Style
import WireQuery.Text.Utf8

/-!
Values as SQL holds them. Text is bytes here, which need not be well formed, and no real number is a nan.
-/

namespace WireQuery

inductive SqlValue where
  | null
  | integer (i : Int64)
  | real (bits : UInt64)
  | text (b : Bytes)
  | blob (b : Bytes)
  deriving DecidableEq, Repr

namespace SqlValue

def ofReal (bits : UInt64) : SqlValue := if Binary.isNan Binary.double bits.toNat then null else real bits

def ofText (s : String) : SqlValue := text (Utf8.encode s)

def ofDatum : Datum → SqlValue
  | .null => null
  | .integer i => integer i
  | .real bits => ofReal bits
  | .text s => ofText s
  | .blob b => blob b

def typeName : SqlValue → String
  | null => "Null"
  | integer _ => "Integer"
  | real _ => "Real"
  | text _ => "Text"
  | blob _ => "Blob"

/-- Fails where text is not well formed. -/
def datum? : SqlValue → Option Datum
  | null => some .null
  | integer i => some (.integer i)
  | real bits => some (.real bits)
  | text b => (Utf8.decode? b).map .text
  | blob b => some (.blob b)

end SqlValue

end WireQuery
