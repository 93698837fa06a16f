import WireQuery.Schema.Declaration.Reader
import WireQuery.Schema.Literal
import WireQuery.Message.Basic

namespace WireQuery

/-- One part of an option's name, which may name an extension. -/
structure OptionPart where
  name : String := ""
  isExtension : Bool := false
  deriving DecidableEq, Repr

structure WrittenOption where
  parts : List OptionPart := []
  word : Option String := none
  positive : Option UInt64 := none
  negative : Option Int64 := none
  real : Option UInt64 := none
  text : Option Bytes := none
  deriving DecidableEq, Repr

namespace Reader

def optionPart (levels : Nat) (d : OptionPart) : Wire.Field → Option OptionPart
  | (1, p) => (text? p).map (fun s => { d with name := s })
  | (2, p) => (flag? p).map (fun b => { d with isExtension := b })
  | (_, p) => (pass? levels p).map (fun _ => d)

def writtenOption (levels : Nat) (o : WrittenOption) : Wire.Field → Option WrittenOption
  | (2, p) => (message? {} optionPart levels p).map (fun d => { o with parts := o.parts ++ [d] })
  | (3, p) => (text? p).map (fun s => { o with word := some s })
  | (4, .varint v) => some { o with positive := some v }
  | (5, .varint v) => some { o with negative := some v.toInt64 }
  | (6, .fixed64 v) => some { o with real := some v }
  | (7, .bytes b) => some { o with text := some b }
  | (_, p) => (pass? levels p).map (fun _ => o)

end Reader

/-- The options among these fields that are written by name. -/
def WrittenOption.readAll? (fields : List Wire.Field) : Option (List WrittenOption) :=
  (fields.filter (·.1 = Options.writtenNumber)).mapM (fun f => Reader.message? {} Reader.writtenOption Reader.depth f.2)

namespace WrittenOption

def whole? (o : WrittenOption) : Option Int :=
  match o.positive with
  | some n => some n.toNat
  | none => o.negative.map (·.toInt)

/-- A real number, perhaps written as a whole one, and infinity and nan by their names. -/
def real? (o : WrittenOption) : Option UInt64 :=
  match o.real, o.whole? with
  | some b, _ => some b
  | none, some i =>
    some (UInt64.ofNat (Binary.signed Binary.double (i < 0) (Binary.roundQuotient Binary.double i.natAbs 1)))
  | none, none =>
    match o.word with
    | some "inf" => some (UInt64.ofNat Binary.double.infinity)
    | some "nan" => some (UInt64.ofNat (Binary.double.infinity + Binary.double.implicitBit / 2))
    | _ => none

def scalar? (o : WrittenOption) (k : ScalarKind) : Option Scalar :=
  match k with
  | .double => o.real?.map .double
  | .float => o.real?.map (fun b => .float (UInt32.ofNat (Binary.convert Binary.double Binary.single b.toNat)))
  | .bool => o.word.bind ScalarKind.bool.parse?
  | .string => (o.text.bind Utf8.decode?).map .string
  | .bytes => o.text.map .bytes
  | k => o.whole?.bind k.ofInt?

/-- A value of an enum is written by its name; no message can be written. -/
def value? (o : WrittenOption) (p : Pool) : Kind → Option Value
  | .scalar k => (o.scalar? k).map .scalar
  | .enum name => do
    let e ← p.enum? name
    let word ← o.word
    (e.values.find? (·.name = word)).map (fun v => .scalar (.enum v.number))
  | _ => none

end WrittenOption

end WireQuery
