import WireQuery.Schema.Declaration

namespace WireQuery.Writer

def text (s : String) : Wire.Payload := .bytes (Utf8.encode s)

def int32 (n : Int32) : Wire.Payload := .varint (extend n)

def message (fields : List Wire.Field) : Wire.Payload := .bytes (Wire.write fields)

def optional (number : Nat) (f : α → Wire.Payload) : Option α → List Wire.Field
  | some x => [(number, f x)]
  | none => []

def each (number : Nat) (f : α → Wire.Payload) (xs : List α) : List Wire.Field := xs.map (fun x => (number, f x))

def range (r : NumberRange) : Wire.Payload := message [(1, int32 r.start), (2, int32 r.stop)]

def extensionRange (r : ExtensionRange) : Wire.Payload :=
  message ([(1, int32 r.start), (2, int32 r.stop)] ++ optional 3 message r.options)

def field (d : FieldDecl) : Wire.Payload :=
  message ([(1, text d.name)] ++ optional 2 text d.extendee ++
    [(3, int32 d.number), (4, .varint (UInt64.ofNat d.label.code)), (5, .varint (UInt64.ofNat d.type.code))] ++
    optional 6 text d.typeName ++ optional 7 text d.default ++ optional 8 message d.options ++
    optional 9 int32 d.oneof ++ optional 10 text d.jsonName ++
    (if d.proto3Optional then [(17, .varint 1)] else []))

def enumValue (v : EnumValueDecl) : Wire.Payload :=
  message ([(1, text v.name), (2, int32 v.number)] ++ optional 3 message v.options)

def enum (d : EnumDecl) : Wire.Payload :=
  message ([(1, text d.name)] ++ each 2 enumValue d.values ++ optional 3 message d.options ++ each 4 range d.reserved)

def oneof (d : OneofDecl) : Wire.Payload := message ([(1, text d.name)] ++ optional 2 message d.options)

mutual

def messageDecl : MessageDecl → Wire.Payload
  | ⟨name, fields, nested, enums, ranges, extensions, options, oneofs, reserved⟩ =>
    message ([(1, text name)] ++ each 2 field fields ++ messageDecls 3 nested ++ each 4 enum enums ++
      each 5 extensionRange ranges ++ each 6 field extensions ++ optional 7 message options ++ each 8 oneof oneofs ++
      each 9 range reserved)

def messageDecls (number : Nat) : List MessageDecl → List Wire.Field
  | [] => []
  | m :: ms => (number, messageDecl m) :: messageDecls number ms

end

def method (d : MethodDecl) : Wire.Payload :=
  message ([(1, text d.name), (2, text d.input), (3, text d.output)] ++ optional 4 message d.options)

def service (d : ServiceDecl) : Wire.Payload :=
  message ([(1, text d.name)] ++ each 2 method d.methods ++ optional 3 message d.options)

def file (d : FileDecl) : Wire.Payload :=
  message ([(1, text d.name)] ++ optional 2 text d.package ++ each 3 text d.imports ++
    messageDecls 4 d.messages ++ each 5 enum d.enums ++ each 6 service d.services ++ each 7 field d.extensions ++
    optional 8 message d.options ++ each 10 int32 d.publicImports ++ each 11 int32 d.weakImports ++
    optional 12 text d.dialect)

end WireQuery.Writer

namespace WireQuery

def FileDecl.writeBundle (files : List FileDecl) : Bytes := Wire.write (Writer.each 1 Writer.file files)

end WireQuery
