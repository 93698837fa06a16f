import WireQuery.Schema.Declaration.Reader
import WireQuery.Schema.Literal
import WireQuery.Schema.Scope
import WireQuery.Schema.Pool

namespace WireQuery

/-- A file of a bundle with its position and the positions of the files whose names it may use. -/
structure SourceFile where
  index : Nat
  decl : FileDecl
  sees : List Nat

structure ScopedMessage where
  file : SourceFile
  name : String
  decl : MessageDecl

structure ScopedEnum where
  file : SourceFile
  name : String
  decl : EnumDecl

/-- An extension or a method by the scope it is declared in. -/
structure Scoped (α : Type) where
  file : SourceFile
  scope : String
  decl : α

section Listing

open Scope

mutual

/-- A message comes before those nested in it. -/
def messagesOf (file : SourceFile) (scope : String) : MessageDecl → List ScopedMessage
  | ⟨name, fields, nested, enums, ranges, extensions, options, oneofs, reserved⟩ =>
    ⟨file, join scope name, ⟨name, fields, nested, enums, ranges, extensions, options, oneofs, reserved⟩⟩ ::
      messagesIn file (join scope name) nested

def messagesIn (file : SourceFile) (scope : String) : List MessageDecl → List ScopedMessage
  | [] => []
  | m :: ms => messagesOf file scope m ++ messagesIn file scope ms

end

mutual

/-- The enums of a message come after those of the messages nested in it. -/
def enumsOf (file : SourceFile) (scope : String) : MessageDecl → List ScopedEnum
  | ⟨name, _, nested, enums, _, _, _, _, _⟩ =>
    enumsIn file (join scope name) nested ++ enums.map (fun e => ⟨file, join (join scope name) e.name, e⟩)

def enumsIn (file : SourceFile) (scope : String) : List MessageDecl → List ScopedEnum
  | [] => []
  | m :: ms => enumsOf file scope m ++ enumsIn file scope ms

end

mutual

/-- The extensions declared in a message come after those of the messages nested in it. -/
def extensionsOf (file : SourceFile) (scope : String) : MessageDecl → List (Scoped FieldDecl)
  | ⟨name, _, nested, _, _, extensions, _, _, _⟩ =>
    extensionsIn file (join scope name) nested ++ extensions.map (fun e => ⟨file, join scope name, e⟩)

def extensionsIn (file : SourceFile) (scope : String) : List MessageDecl → List (Scoped FieldDecl)
  | [] => []
  | m :: ms => extensionsOf file scope m ++ extensionsIn file scope ms

end

namespace SourceFile

def messages (f : SourceFile) : List ScopedMessage := messagesIn f f.decl.scope f.decl.messages

def enums (f : SourceFile) : List ScopedEnum :=
  enumsIn f f.decl.scope f.decl.messages ++ f.decl.enums.map (fun e => ⟨f, join f.decl.scope e.name, e⟩)

def extensions (f : SourceFile) : List (Scoped FieldDecl) :=
  extensionsIn f f.decl.scope f.decl.messages ++ f.decl.extensions.map (fun e => ⟨f, f.decl.scope, e⟩)

def methods (f : SourceFile) : List (Scoped MethodDecl) :=
  f.decl.services.flatMap (fun s => s.methods.map (fun m => ⟨f, join f.decl.scope s.name, m⟩))

end SourceFile

end Listing

namespace Imports

def position? (files : List FileDecl) (name : String) : Option Nat := files.findIdx? (·.name = name)

def at? (f : FileDecl) (i : Int32) : Option String := if i < 0 then none else f.imports[i.toInt.toNat]?

/-- The files that a file passes on to those that import it. -/
def passedOn (files : List FileDecl) (i : Nat) : List Nat :=
  match files[i]? with
  | none => []
  | some f => f.publicImports.filterMap (fun k => (at? f k).bind (position? files))

/-- Adds what a file passes on. Only a file that was seen before passes on what it was given itself. -/
def receive (files : List FileDecl) : (depth : Nat) → List Nat → Nat → List Nat
  | 0, seen, _ => seen
  | depth + 1, seen, i =>
    (passedOn files i).foldl
      (fun seen k => if seen.contains k then receive files depth seen k else seen ++ [k]) seen

/-- A file sees itself, what it imports, and what those pass on, in the order of its imports. -/
def seenFrom (files : List FileDecl) (i : Nat) (f : FileDecl) : List Nat :=
  (f.imports.filterMap (position? files)).foldl
    (fun seen k => receive files files.length (if seen.contains k then seen else seen ++ [k]) k) [i]

/-- Every import is a file of the bundle, and every mark on one stands at an import. -/
def sound (files : List FileDecl) (f : FileDecl) : Bool :=
  f.imports.all (fun name => (position? files name).isSome) &&
    (f.publicImports ++ f.weakImports).all (fun i => (at? f i).isSome)

end Imports

/-- All that a bundle declares, listed by full names. -/
structure Catalog where
  names : List NameEntry
  files : List SourceFile
  messages : List ScopedMessage
  enums : List ScopedEnum

namespace Catalog

def ofFiles (decls : List FileDecl) : Catalog :=
  let files := decls.zipIdx.map (fun (f, i) => (⟨i, f, Imports.seenFrom decls i f⟩ : SourceFile))
  ⟨decls.zipIdx.flatMap (fun (f, i) => f.entries i), files, files.flatMap (·.messages), files.flatMap (·.enums)⟩

def message? (c : Catalog) (name : String) : Option MessageDecl := (c.messages.find? (·.name = name)).map (·.decl)

def enum? (c : Catalog) (name : String) : Option EnumDecl := (c.enums.find? (·.name = name)).map (·.decl)

def scope (c : Catalog) (f : SourceFile) : Scope := ⟨c.names, f.sees⟩

/-- A type name decides the kind, except that a group stays a group; without one the declared type does. -/
def kind? (c : Catalog) (f : SourceFile) (scope : String) (d : FieldDecl) : Option Kind :=
  match d.typeName.getD "" with
  | "" =>
    match d.type with
    | .scalar k => some (.scalar k)
    | _ => none
  | name => do
    let e ← (c.scope f).resolve? NameKind.isType scope name
    if e.kind = .enum then some (.enum e.name)
    else
      let entry := ((c.message? e.name).map MessageDecl.isMapEntry).getD false
      some (if d.label = .repeated && entry then .map e.name else .message e.name)

/-- Outside an optional result: whether there is a default at all. -/
def default? (c : Catalog) (kind : Kind) (d : FieldDecl) : Option (Option Scalar) :=
  match kind, d.default with
  | .enum name, none => some (((c.enum? name).bind (·.values.head?)).map (fun v => .enum v.number))
  | .enum name, some s =>
    (((c.enum? name).bind (·.values.find? (·.name = s))).map (fun v => some (.enum v.number)))
  | .scalar k, some s => (k.parse? s).map some
  | _, none => some none
  | _, some _ => none

def field? (c : Catalog) (f : SourceFile) (scope : String) (extension : Bool) (d : FieldDecl) : Option FieldDef := do
  let kind ← c.kind? f (Scope.join scope d.name) d
  let initial ← c.default? kind d
  let repeated := d.label = .repeated
  let isMessage := match kind with
    | .message _ | .map _ => true
    | _ => false
  let presence :=
    if extension then !repeated
    else d.proto3Optional || d.oneof.isSome || (!repeated && (isMessage || !f.decl.isProto3))
  some {
    name := if extension then Scope.join scope d.name else d.name
    number := d.number.toInt.toNat
    cardinality := if repeated then .repeated else .optional
    kind := kind
    group := d.type = .group && isMessage
    presence := presence
    packed := kind.packedType?.isSome && (if d.options.isSome then d.options.flag 2 else f.decl.isProto3)
    oneof := if extension then none else d.oneof.map (·.toInt.toNat)
    extension := extension
    default := initial }

/-- The stop of a range of field numbers is not in it. -/
def inRange (n : Int32) (r : NumberRange) : Bool := r.start ≤ n && n < r.stop

def isFieldNumber (n : Int32) : Bool := 1 ≤ n && n ≤ 536870911 && !(19000 ≤ n && n ≤ 19999)

def allDistinct [BEq α] : List α → Bool
  | [] => true
  | x :: xs => !xs.contains x && allDistinct xs

/-- Underscores are left out, and what follows them is a capital. -/
def camel (capital : Bool) : List Char → List Char
  | [] => []
  | c :: r => if c = '_' then camel true r else (if capital then c.toUpper else c) :: camel false r

/-- The name in the other spelling. -/
def jsonName (d : FieldDecl) : String := d.jsonName.getD (String.ofList (camel false d.name.toList))

def plainName (d : FieldDecl) : String :=
  String.ofList ((d.name.toList.filter (· ≠ '_')).map Char.toLower)

/-- What names an extended message has a number left to extensions, and only that. -/
def hasPlace (m : MessageDecl) (d : FieldDecl) : Bool :=
  isFieldNumber d.number && !m.reserved.any (inRange d.number) &&
    m.ranges.any (fun r => inRange d.number r.toNumberRange) = d.extendee.isSome

def soundMessage (m : ScopedMessage) : Bool :=
  let fields := m.decl.fields
  fields.all (fun d => hasPlace m.decl d &&
    d.oneof.all (fun i => 0 ≤ i && decide (i.toInt.toNat < m.decl.oneofs.length))) &&
  allDistinct (fields.map (·.number)) && allDistinct (fields.map jsonName) &&
  (!m.file.decl.isProto3 || allDistinct (fields.map plainName))

/-- An extension with the full name of the message it extends. -/
def extension? (c : Catalog) (e : Scoped FieldDecl) : Option (String × FieldDef) := do
  let target ← (c.scope e.file).resolve? (· = .message) (Scope.join e.scope e.decl.name) (e.decl.extendee.getD "")
  let m ← c.message? target.name
  if hasPlace m e.decl then
    (c.field? e.file e.scope true e.decl).map (target.name, ·)
  else none

def messageDef? (c : Catalog) (extensions : List (String × FieldDef)) (m : ScopedMessage) : Option MessageDef :=
  if soundMessage m then
    (m.decl.fields.mapM (c.field? m.file m.name false)).map (fun fields => {
      name := m.name
      mapEntry := m.decl.isMapEntry
      fields := fields.mergeSort (fun a b => a.number ≤ b.number)
      extensions := (extensions.filter (·.1 = m.name)).map (·.2) })
  else none

/-- The stop of a reserved range of enum numbers is in it. -/
def soundEnum (e : ScopedEnum) : Bool :=
  let numbers := e.decl.values.map (·.number)
  !numbers.isEmpty && (!e.file.decl.isProto3 || numbers.head? = some 0) &&
  (e.decl.allowsAlias || allDistinct numbers) &&
  numbers.all (fun n => !e.decl.reserved.any (fun r => r.start ≤ n && n ≤ r.stop))

def enumDef? (e : ScopedEnum) : Option EnumDef :=
  if soundEnum e then some ⟨e.name, e.decl.values.map (·.toEnumValue)⟩ else none

def soundMethod (c : Catalog) (m : Scoped MethodDecl) : Bool :=
  let resolves (name : String) : Bool :=
    ((c.scope m.file).resolve? (· = .message) (Scope.join m.scope m.decl.name) name).isSome
  resolves m.decl.input && resolves m.decl.output

/-- The pool of all messages and enums, if everything declared fits together. -/
def link? (c : Catalog) : Option Pool :=
  let decls := c.files.map (·.decl)
  if allDistinct (decls.map (·.name)) && agreeAll c.names && decls.all (Imports.sound decls) &&
      c.files.all (fun f => f.methods.all c.soundMethod) then do
    let extensions ← (c.files.flatMap (·.extensions)).mapM c.extension?
    let messages ← c.messages.mapM (c.messageDef? extensions)
    let enums ← c.enums.mapM enumDef?
    some ⟨messages, enums⟩
  else none

end Catalog

def Pool.link? (decls : List FileDecl) : Option Pool := (Catalog.ofFiles decls).link?

end WireQuery
