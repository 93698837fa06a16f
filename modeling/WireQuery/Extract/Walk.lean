import WireQuery.Extract.Node
import WireQuery.Message.Writer
import WireQuery.Registry.Basic

namespace WireQuery

/-- A value for a database; a real number is its bits. -/
inductive Datum where
  | null
  | integer (i : Int64)
  | real (bits : UInt64)
  | text (s : String)
  | blob (b : Bytes)
  deriving DecidableEq, Repr

/-- A value with what is to be told beside it. -/
structure Extraction where
  value : Datum
  warnings : List Warning := []
  deriving DecidableEq, Repr

namespace Scalar

/-- The unsigned value of a wide kind. -/
def wide? : Scalar → Option UInt64
  | uint64 v => some v
  | fixed64 v => some v
  | _ => none

/-- Wide unsigned values keep their bits. -/
def datum : Scalar → Datum
  | double b => .real b
  | float b => .real (UInt64.ofNat (Binary.convert Binary.single Binary.double b.toNat))
  | int32 v | sint32 v | sfixed32 v | enum v => .integer v.toInt64
  | int64 v | sint64 v | sfixed64 v => .integer v
  | uint32 v | fixed32 v => .integer v.toUInt64.toInt64
  | uint64 v | fixed64 v => .integer v.toInt64
  | bool b => .integer (if b then 1 else 0)
  | string s => .text s
  | bytes b => .blob b

end Scalar

/-- What a walk is about: the type it starts from, its path, and whether wrapped values are told. -/
structure Walk where
  pool : Pool
  rootType : String
  path : Path
  warnOnUnsigned : Bool

namespace Walk

def warnings (w : Walk) (s : Scalar) : List Warning :=
  match s.wide? with
  | some v =>
    if w.warnOnUnsigned && 9223372036854775807 < v then [.wrapped w.rootType w.path.text v] else []
  | none => []

/-- The value of the node at the end of the path. -/
def finish (w : Walk) : Node → Except Error Extraction
  | .absent => .ok ⟨.null, []⟩
  | .message _ m => .ok ⟨.blob m.encode, []⟩
  | .repeated f _ => .error (.invalidPath (.indexExpected f.name))
  | .enum n _ => .ok ⟨.integer n.toInt64, []⟩
  | .single (.scalar s) => .ok ⟨s.datum, w.warnings s⟩
  | .single (.message m) => .ok ⟨.blob m.encode, []⟩
  | .single _ => .error (.invalidPath (.noSingleValue w.path.text))

def accessor (number : Int32) (type : EnumDef) (name : String) : Except Error Extraction :=
  match EnumAccessor.ofField? name with
  | some .number => .ok ⟨.integer number.toInt64, []⟩
  | some .name =>
    match type.nameFor? number with
    | some s => .ok ⟨.text s, []⟩
    | none => .error (.unknownEnumValue number type.name)
  | none => .error (.invalidPath .pastScalar)

/-- An enum value has its two accessors as last steps, and nothing else follows a single value. -/
def go (w : Walk) (node : Node) (steps : List Step) : Except Error Extraction :=
  match node, steps with
  | node, [] => w.finish node
  | .absent, _ :: _ => .ok ⟨.null, []⟩
  | .message type m, .field name :: steps => do
    let node ← Node.field w.pool type m name
    w.go node steps
  | .message type _, .index _ :: _ => .error (.invalidPath (.indexOnMessage type.name))
  | .repeated f items, .index i :: steps => do
    let node ← Node.index w.pool f items i
    w.go node steps
  | .repeated f _, .field _ :: _ => .error (.invalidPath (.indexExpected f.name))
  | .enum n type, [.field name] => accessor n type name
  | .enum _ _, _ :: _ => .error (.invalidPath .pastScalar)
  | .single _, _ :: _ => .error (.invalidPath .pastScalar)
termination_by structural steps

end Walk

namespace Registry

def extract (r : Registry) (warnOnUnsigned : Bool) (b : Bytes) (type : String) (path : Path) :
    Except Error Extraction := do
  let t ← r.message? type
  match t.pool.read? t.definition b with
  | none => .error (.corruptData type b)
  | some m => (Walk.mk t.pool type path warnOnUnsigned).go (.message t.definition m) path.steps

/-- The path is read before anything else. -/
def extractText (r : Registry) (warnOnUnsigned : Bool) (b : Bytes) (type path : String) : Except Error Extraction :=
  match Path.parse path with
  | .error e => .error (.malformedPath e)
  | .ok p => r.extract warnOnUnsigned b type p

end Registry

end WireQuery
