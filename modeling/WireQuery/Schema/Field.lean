import WireQuery.Schema.Scalar

namespace WireQuery

inductive Kind where
  | scalar (kind : ScalarKind)
  | enum (name : String)
  | message (name : String)
  /-- The entry type of a map. -/
  | map (entry : String)
  deriving DecidableEq, Repr

namespace Kind

def typeName : Kind → String
  | scalar k => k.text
  | enum name | message name | map name => name

def text : Kind → String
  | map entry => "map<" ++ entry ++ ">"
  | k => k.typeName

def isMap : Kind → Bool
  | map _ => true
  | _ => false

/-- How one element of a packed run is laid out; text, bytes and messages are never packed. -/
def packedType? : Kind → Option Wire.WireType
  | scalar .string | scalar .bytes => none
  | scalar k => some k.wireType
  | enum _ => some .varint
  | _ => none

def readScalar? : Kind → Wire.Payload → Option Scalar
  | scalar k, p => k.read? p
  | enum _, p => readEnum? p
  | _, _ => none

end Kind

inductive Cardinality where
  | optional
  | repeated
  deriving DecidableEq, Repr

structure FieldSpec where
  name : String
  number : Nat
  cardinality : Cardinality
  kind : Kind
  deriving DecidableEq, Repr

namespace FieldSpec

def isRepeated (f : FieldSpec) : Bool := f.cardinality = .repeated

/-- A map says by its kind that it is repeated. -/
def text (f : FieldSpec) : String :=
  (if f.isRepeated && !f.kind.isMap then "repeated " else "") ++ f.kind.text ++ " " ++ f.name ++ " = " ++
    Decimal.natText f.number

end FieldSpec

structure FieldDef extends FieldSpec where
  /-- The message is written between a start and an end instead of by its length. -/
  group : Bool
  /-- A value equal to the default counts as set. -/
  presence : Bool
  packed : Bool
  oneof : Option Nat
  extension : Bool
  /-- The declared default; for an enum without one, its first value. -/
  default : Option Scalar
  deriving DecidableEq, Repr

structure MessageDef where
  name : String
  mapEntry : Bool
  /-- Listed by number. -/
  fields : List FieldDef
  extensions : List FieldDef
  deriving DecidableEq, Repr

namespace MessageDef

def field? (m : MessageDef) (name : String) : Option FieldDef := m.fields.find? (·.name = name)

def numbered? (m : MessageDef) (number : Nat) : Option FieldDef :=
  (m.fields ++ m.extensions).find? (·.number = number)

end MessageDef

end WireQuery
