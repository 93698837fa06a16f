import WireQuery.Message.Reader
import WireQuery.Schema.Link
import WireQuery.Schema.Options.Written

namespace WireQuery

namespace KnownOption

def kind (scope : String) (o : KnownOption) : Kind :=
  match o.form with
  | .flag => .scalar .bool
  | .text => .scalar .string
  | .choice _ => .enum (Scope.join scope o.name)

def toFieldDef (scope : String) (o : KnownOption) : FieldDef where
  name := o.name
  number := o.number
  cardinality := .optional
  kind := o.kind scope
  group := false
  presence := true
  packed := false
  oneof := none
  extension := false
  default := none

def enum? (scope : String) (o : KnownOption) : Option EnumDef :=
  match o.form with
  | .choice values => some ⟨Scope.join scope o.name, values⟩
  | _ => none

end KnownOption

def OptionSubject.definition (s : OptionSubject) : MessageDef where
  name := s.typeName
  mapEntry := false
  fields := s.known.map (·.toFieldDef s.typeName)
  extensions := []

namespace Pool

/-- The types of the options that every bundle knows. -/
def standardOptions : Pool where
  messages := OptionSubject.all.map (·.definition)
  enums := OptionSubject.all.flatMap (fun s => s.known.filterMap (·.enum? s.typeName))

/-- A bundle that declares the type of options itself is followed. -/
def optionType (p : Pool) (s : OptionSubject) : MessageType :=
  match p.message? s.typeName with
  | some ty => ⟨ty, p⟩
  | none => ⟨s.definition, standardOptions⟩

end Pool

namespace WrittenOption

/-- A list takes a value more; anything else is set only once. -/
def setLast? (o : WrittenOption) (p : Pool) (f : FieldDef) (m : Message) : Option Message :=
  (o.value? p f.kind).bind (fun v => match m.get f with
    | .list vs => some (m.set f (.list (vs ++ [v])))
    | _ => if m.has f then none else some (m.set f v))

/-- Sets an option by the parts of its name, all but the last of which lead into messages. No name sets nothing. -/
def set? (o : WrittenOption) (p : Pool) (find : MessageDef → OptionPart → Option FieldDef) :
    List OptionPart → MessageDef → Message → Option Message
  | [], _, m => some m
  | [part], ty, m => (find ty part).bind (fun f => o.setLast? p f m)
  | part :: parts, ty, m => do
    let f ← find ty part
    match f.kind, m.get f with
    | .message name, .message inner => do
      let inner ← o.set? p find parts (← p.message? name) inner
      some (m.set f (.message inner))
    | _, _ => none

end WrittenOption

/-- Options and what they belong to, with the full name it is declared under. -/
structure PlacedOptions where
  file : SourceFile
  scope : String
  subject : OptionSubject
  fields : List Wire.Field

namespace PlacedOptions

def of (file : SourceFile) (scope : String) (subject : OptionSubject) (o : Options) : List PlacedOptions :=
  o.toList.map (⟨file, scope, subject, ·⟩)

def ofField (file : SourceFile) (scope : String) (d : FieldDecl) : List PlacedOptions :=
  of file (Scope.join scope d.name) .field d.options

def ofMessage (m : ScopedMessage) : List PlacedOptions :=
  of m.file m.name .message m.decl.options ++ m.decl.fields.flatMap (ofField m.file m.name) ++
    m.decl.oneofs.flatMap (fun d => of m.file (Scope.join m.name d.name) .oneof d.options) ++
    m.decl.ranges.flatMap (fun r => of m.file m.name .extensionRange r.options)

def ofEnum (e : ScopedEnum) : List PlacedOptions :=
  of e.file e.name .enum e.decl.options ++
    e.decl.values.flatMap (fun v => of e.file e.name .enumValue v.options)

def ofService (file : SourceFile) (s : ServiceDecl) : List PlacedOptions :=
  of file (Scope.join file.decl.scope s.name) .service s.options

def ofFile (f : SourceFile) : List PlacedOptions :=
  of f f.decl.scope .file f.decl.options ++ f.decl.services.flatMap (ofService f) ++
    f.methods.flatMap (fun m => of f (Scope.join m.scope m.decl.name) .method m.decl.options) ++
    f.extensions.flatMap (fun e => ofField f e.scope e.decl)

/-- An extension is found by its name in the bundle, and must extend the message it is set in. -/
def find? (s : Scope) (scope : String) (ty : MessageDef) (part : OptionPart) : Option FieldDef :=
  if part.isExtension then
    (s.resolve? (· = .extension) scope part.name).bind (fun e => ty.extensions.find? (·.name = e.name))
  else ty.field? part.name

/-- The message of all options, with those set that are written by name. -/
def message? (c : Catalog) (p : Pool) (o : PlacedOptions) : Option Message := do
  let ⟨ty, p⟩ := p.optionType o.subject
  let start ← p.read? ty (Wire.write o.fields)
  let written ← WrittenOption.readAll? o.fields
  written.foldlM (fun m w => w.set? p (find? (c.scope o.file) o.scope) w.parts ty m) start

end PlacedOptions

def Catalog.options (c : Catalog) : List PlacedOptions :=
  c.files.flatMap PlacedOptions.ofFile ++ c.messages.flatMap PlacedOptions.ofMessage ++
    c.enums.flatMap PlacedOptions.ofEnum

/-- The pool of a bundle's bytes, if its files fit together and all options can be set. -/
def Pool.decode? (b : Bytes) : Option Pool := do
  let c := Catalog.ofFiles (← FileDecl.readBundle? b)
  let p ← c.link?
  if c.options.all (fun o => (o.message? c p).isSome) then some p else none

end WireQuery
