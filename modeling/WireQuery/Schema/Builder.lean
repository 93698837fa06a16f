import WireQuery.Schema.Declaration.Writer
import WireQuery.Text.Upper

namespace WireQuery

namespace FieldDecl

def plain (label : Label) (name : String) (number : Int32) (type : FieldType) : FieldDecl :=
  { name := name, number := number, label := label, type := type }

def reference (label : Label) (name : String) (number : Int32) (type : FieldType) (target : String) : FieldDecl :=
  { plain label name number type with typeName := some target }

end FieldDecl

/-- The parts of a name between underscores, each with a capital. -/
def camelParts (part : List Char) : List Char → List Char
  | [] => capitalized part.reverse
  | c :: r => if c = '_' then capitalized part.reverse ++ camelParts [] r else camelParts (c :: part) r
where
  capitalized : List Char → List Char
    | [] => []
    | c :: r => Upper.capital c ++ r

def entryName (field : String) : String := String.ofList (camelParts [] field.toList ++ "Entry".toList)

namespace MessageDecl

def named (name : String) : MessageDecl := { name := name }

def field (m : MessageDecl) (f : FieldDecl) : MessageDecl := { m with fields := m.fields ++ [f] }

def optional (m : MessageDecl) (name : String) (number : Int32) (type : FieldType) : MessageDecl :=
  m.field (.plain .optional name number type)

def repeated (m : MessageDecl) (name : String) (number : Int32) (type : FieldType) : MessageDecl :=
  m.field (.plain .repeated name number type)

def optionalRef (m : MessageDecl) (name : String) (number : Int32) (type : FieldType) (target : String) : MessageDecl :=
  m.field (.reference .optional name number type target)

def repeatedRef (m : MessageDecl) (name : String) (number : Int32) (type : FieldType) (target : String) : MessageDecl :=
  m.field (.reference .repeated name number type target)

def nest (m n : MessageDecl) : MessageDecl := { m with nested := m.nested ++ [n] }

def enumeration (m : MessageDecl) (e : EnumDecl) : MessageDecl := { m with enums := m.enums ++ [e] }

/-- A map is a repeated field of a nested entry type; `scope` is this message's own absolute name. -/
def map (m : MessageDecl) (name : String) (number : Int32) (scope : String) (key value : FieldType) : MessageDecl :=
  let entry := ((named (entryName name)).optional "key" 1 key).optional "value" 2 value
  (m.nest { entry with options := some [(7, .varint 1)] }).repeatedRef name number .message
    (scope ++ "." ++ entryName name)

end MessageDecl

namespace EnumDecl

def named (name : String) : EnumDecl := { name := name }

def value (e : EnumDecl) (name : String) (number : Int32) : EnumDecl :=
  { e with values := e.values ++ [{ number := number, name := name }] }

def allowAlias (e : EnumDecl) : EnumDecl := { e with options := some [(2, .varint 1)] }

end EnumDecl

namespace FileDecl

def named (name : String) : FileDecl := { name := name, dialect := some "proto2" }

def inPackage (f : FileDecl) (package : String) : FileDecl := { f with package := some package }

def message (f : FileDecl) (m : MessageDecl) : FileDecl := { f with messages := f.messages ++ [m] }

def enumeration (f : FileDecl) (e : EnumDecl) : FileDecl := { f with enums := f.enums ++ [e] }

end FileDecl

end WireQuery
