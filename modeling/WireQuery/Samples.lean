import WireQuery.Schema.Builder
import WireQuery.Schema.Link
import WireQuery.Message.Writer

namespace WireQuery.Samples

def int32 : FieldType := .scalar .int32

def string : FieldType := .scalar .string

def phoneNumber : MessageDecl :=
  ((MessageDecl.named "PhoneNumber").optional "number" 1 string).field
    { FieldDecl.reference .optional "type" 2 .enum ".Person.PhoneType" with default := some "HOME" }

def person : MessageDecl :=
  (((((((((MessageDecl.named "Person").enumeration
    ((((EnumDecl.named "PhoneType").value "MOBILE" 0).value "HOME" 1).value "WORK" 2)).optional "name" 1 string).optional
    "id" 2 int32).optional "email" 3 string).repeatedRef "phones" 4 .message ".Person.PhoneNumber").optionalRef
    "manager" 5 .message ".Person").repeated "scores" 6 int32).optional "salary" 7 (.scalar .double)).optional
    "active" 8 (.scalar .bool)

/-- People with telephone numbers. -/
def addressBook : FileDecl := (FileDecl.named "addressbook.proto").message (person.nest phoneNumber)

def enums : FileDecl :=
  (((FileDecl.named "enums.proto").enumeration
    ((((EnumDecl.named "TestEnum").value "A" 3).value "B" 2).value "C" 1)).enumeration
    (((((EnumDecl.named "TestEnumWithAliases").allowAlias).value "A1" 1).value "XY" 2).value "A2" 1)).message
    ((((MessageDecl.named "TestMessage").enumeration
      ((((EnumDecl.named "EmbeddedTestEnum").value "D" 1).value "E" 2).value "F" 3)).optionalRef
      "enum_field" 1 .enum ".TestMessage.EmbeddedTestEnum").optionalRef "aliased" 2 .enum ".TestEnumWithAliases")

def repeated : FileDecl :=
  (FileDecl.named "repeated.proto").message ((MessageDecl.named "M").repeated "x" 1 int32)

/-- Nodes that hold the next one. -/
def chain : FileDecl :=
  (FileDecl.named "chain.proto").message
    (((MessageDecl.named "N").optionalRef "next" 1 .message ".N").optional "x" 2 int32)

/-- The nodes again, and lists of the first ones. -/
def chains : FileDecl := chain.message ((MessageDecl.named "Chains").repeatedRef "first" 1 .message ".N")

/-- Walls, each with a color. -/
def walls : FileDecl :=
  ((FileDecl.named "walls.proto").enumeration (((EnumDecl.named "Color").value "RED" 1).value "BLUE" 2)).message
    ((MessageDecl.named "Wall").optionalRef "color" 1 .enum ".Color")

/-- One field, with a default that its listing does not show. -/
def defaulted (initial : String) : FileDecl :=
  (FileDecl.named "defaulted.proto").message
    ((MessageDecl.named "T").field { FieldDecl.plain .optional "x" 1 int32 with default := some initial })

def scalarFields : List (String × ScalarKind) :=
  [("d", .double), ("f", .float), ("i32", .int32), ("i64", .int64), ("u32", .uint32), ("u64", .uint64),
    ("s32", .sint32), ("s64", .sint64), ("fx32", .fixed32), ("fx64", .fixed64), ("sfx32", .sfixed32),
    ("sfx64", .sfixed64), ("b", .bool), ("s", .string), ("raw", .bytes)]

/-- A field of every scalar kind, and a map. -/
def scalars : FileDecl :=
  let fields := scalarFields.zipIdx.foldl
    (fun (m : MessageDecl) ((name, k), i) => m.optional name (Int32.ofNat (i + 1)) (.scalar k)) (MessageDecl.named "Scalars")
  ((FileDecl.named "scalars.proto").inPackage "test").message (fields.map "tags" 16 ".test.Scalars" string int32)

/-- Another type of the name of a person. -/
def conflictingPerson : FileDecl :=
  (FileDecl.named "other_person.proto").message
    (((MessageDecl.named "Person").optional "name" 1 string).optional "nickname" 2 string)

def setNamed (type : MessageDef) (m : Message) (name : String) (v : Value) : Message :=
  match type.field? name with
  | some f => m.set f v
  | none => m

def ofFields (type : MessageDef) (fields : List (String × Value)) : Message :=
  fields.foldl (fun m (name, v) => setNamed type m name v) {}

/-- John Smith with two telephone numbers. -/
def samplePerson? : Option Message := do
  let p ← Pool.link? [addressBook]
  let person ← p.message? "Person"
  let phone ← p.message? "Person.PhoneNumber"
  let number (s : String) (kind : Int32) : Value :=
    .message (ofFields phone [("number", .scalar (.string s)), ("type", .scalar (.enum kind))])
  some (ofFields person [("name", .scalar (.string "John Smith")), ("id", .scalar (.int32 42)),
    ("phones", .list [number "555-0100" 0, number "555-0199" 2]),
    ("scores", .list ([7, 8, 9].map (fun n => .scalar (.int32 n)))), ("active", .scalar (.bool true))])

/-- Ten to a hundred and nine. -/
def hundredElements? : Option Message := do
  let p ← Pool.link? [repeated]
  let m ← p.message? "M"
  some (ofFields m [("x", .list ((List.range 100).map (fun i => .scalar (.int32 (Int32.ofNat (i + 10))))))])

end WireQuery.Samples
