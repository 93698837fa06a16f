import WireQuery.Schema.Field
import WireQuery.Schema.Options

namespace WireQuery

inductive FieldType where
  | scalar (kind : ScalarKind)
  | group
  | message
  | enum
  deriving DecidableEq, Repr

namespace FieldType

def code : FieldType → Nat
  | scalar .double => 1
  | scalar .float => 2
  | scalar .int64 => 3
  | scalar .uint64 => 4
  | scalar .int32 => 5
  | scalar .fixed64 => 6
  | scalar .fixed32 => 7
  | scalar .bool => 8
  | scalar .string => 9
  | group => 10
  | message => 11
  | scalar .bytes => 12
  | scalar .uint32 => 13
  | enum => 14
  | scalar .sfixed32 => 15
  | scalar .sfixed64 => 16
  | scalar .sint32 => 17
  | scalar .sint64 => 18

/-- A code without a meaning is read as a double. -/
def ofCode : Nat → FieldType
  | 2 => scalar .float
  | 3 => scalar .int64
  | 4 => scalar .uint64
  | 5 => scalar .int32
  | 6 => scalar .fixed64
  | 7 => scalar .fixed32
  | 8 => scalar .bool
  | 9 => scalar .string
  | 10 => group
  | 11 => message
  | 12 => scalar .bytes
  | 13 => scalar .uint32
  | 14 => enum
  | 15 => scalar .sfixed32
  | 16 => scalar .sfixed64
  | 17 => scalar .sint32
  | 18 => scalar .sint64
  | _ => scalar .double

end FieldType

inductive Label where
  | optional
  | required
  | repeated
  deriving DecidableEq, Repr

namespace Label

def code : Label → Nat
  | optional => 1
  | required => 2
  | repeated => 3

/-- A code without a meaning is read as optional. -/
def ofCode : Nat → Label
  | 2 => required
  | 3 => repeated
  | _ => optional

end Label

structure FieldDecl where
  name : String := ""
  extendee : Option String := none
  number : Int32 := 0
  label : Label := .optional
  type : FieldType := .scalar .double
  typeName : Option String := none
  default : Option String := none
  options : Options := none
  oneof : Option Int32 := none
  jsonName : Option String := none
  proto3Optional : Bool := false

/-- Numbers from `start`; each user of a range says whether `stop` is in it. -/
structure NumberRange where
  start : Int32 := 0
  stop : Int32 := 0
  deriving DecidableEq, Repr

/-- Numbers left to extensions. -/
structure ExtensionRange extends NumberRange where
  options : Options := none

structure EnumValueDecl extends EnumValue where
  options : Options := none

structure EnumDecl where
  name : String := ""
  values : List EnumValueDecl := []
  options : Options := none
  reserved : List NumberRange := []

namespace EnumDecl

def allowsAlias (e : EnumDecl) : Bool := e.options.flag 2

end EnumDecl

structure OneofDecl where
  name : String := ""
  options : Options := none

structure MessageDecl where
  name : String := ""
  fields : List FieldDecl := []
  nested : List MessageDecl := []
  enums : List EnumDecl := []
  ranges : List ExtensionRange := []
  extensions : List FieldDecl := []
  options : Options := none
  oneofs : List OneofDecl := []
  reserved : List NumberRange := []

namespace MessageDecl

def isMapEntry (m : MessageDecl) : Bool := m.options.flag 7

end MessageDecl

structure MethodDecl where
  name : String := ""
  input : String := ""
  output : String := ""
  options : Options := none

structure ServiceDecl where
  name : String := ""
  methods : List MethodDecl := []
  options : Options := none

structure FileDecl where
  name : String := ""
  package : Option String := none
  imports : List String := []
  messages : List MessageDecl := []
  enums : List EnumDecl := []
  services : List ServiceDecl := []
  extensions : List FieldDecl := []
  /-- Positions in `imports` of those passed on to importers. -/
  publicImports : List Int32 := []
  weakImports : List Int32 := []
  dialect : Option String := none
  options : Options := none

namespace FileDecl

def isProto3 (f : FileDecl) : Bool := f.dialect = some "proto3"

end FileDecl

end WireQuery
