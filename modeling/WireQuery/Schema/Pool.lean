import WireQuery.Schema.Field
import WireQuery.Schema.Enum

namespace WireQuery

structure EnumDef where
  name : String
  values : List EnumValue
  deriving DecidableEq, Repr

/-- The first name declared for a number. -/
def EnumDef.nameFor? (e : EnumDef) (number : Int32) : Option String :=
  (e.values.find? (·.number = number)).map (·.name)

structure Pool where
  messages : List MessageDef
  enums : List EnumDef
  deriving DecidableEq, Repr

namespace Pool

def message? (p : Pool) (name : String) : Option MessageDef := p.messages.find? (·.name = name)

def enum? (p : Pool) (name : String) : Option EnumDef := p.enums.find? (·.name = name)

end Pool

/-- A message type together with the pool that its fields refer into. -/
structure MessageType where
  definition : MessageDef
  pool : Pool
  deriving DecidableEq, Repr

namespace MessageType

def name (m : MessageType) : String := m.definition.name

def fields (m : MessageType) : List FieldSpec := m.definition.fields.map (·.toFieldSpec)

def field? (m : MessageType) (name : String) : Option FieldSpec := m.fields.find? (·.name = name)

/-- Equal in name and in the list of fields; the pools are not compared. -/
def same (a b : MessageType) : Bool := a.name = b.name && a.fields = b.fields

end MessageType

inductive TypeKind where
  | message
  | enum
  deriving DecidableEq, Repr

def TypeKind.text : TypeKind → String
  | message => "message descriptor"
  | enum => "enum type"

inductive TypeDescriptor where
  | message (m : MessageType)
  | enum (e : EnumType)

namespace TypeDescriptor

def name : TypeDescriptor → String
  | message m => m.name
  | enum e => e.name

def kind : TypeDescriptor → TypeKind
  | message _ => .message
  | enum _ => .enum

def sameDefinition : TypeDescriptor → TypeDescriptor → Bool
  | message a, message b => a.same b
  | enum a, enum b => a.same b
  | _, _ => false

end TypeDescriptor

/-- Every type that can be addressed: messages first, then enums. The entry types of maps cannot. -/
def Pool.descriptors (p : Pool) : List TypeDescriptor :=
  ((p.messages.filter (!·.mapEntry)).map (fun m => .message ⟨m, p⟩)) ++
    p.enums.map (fun e => .enum (EnumType.ofValues e.name e.values))

end WireQuery
