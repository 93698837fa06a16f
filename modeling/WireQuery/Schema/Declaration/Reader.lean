import WireQuery.Schema.Declaration

namespace WireQuery

/-- What a known field of a message holds, where only its form matters. -/
inductive Shape where
  | scalar (kind : ScalarKind)
  /-- Elements of a repeated kind may also come packed. -/
  | many (kind : ScalarKind)
  | message (fields : List (Nat × Shape))

namespace Reader

/-- The messages that may still open inside each other below a whole bundle. -/
def depth : Nat := 100

def pass? (levels : Nat) (p : Wire.Payload) : Option Unit := if p.levels ≤ levels then some () else none

/-- Reads the body of a message, one level down. -/
def body? : Nat → Wire.Payload → Option (List Wire.Field)
  | _ + 1, .bytes b => Wire.read .plain () b
  | _, _ => none

def text? : Wire.Payload → Option String
  | .bytes b => Utf8.decode? b
  | _ => none

def int32? : Wire.Payload → Option Int32
  | .varint v => some v.toUInt32.toInt32
  | _ => none

def flag? : Wire.Payload → Option Bool
  | .varint v => some (v != 0)
  | _ => none

def int32s? : Wire.Payload → Option (List Int32)
  | .bytes b => (Wire.readRun .varint b).bind (List.mapM int32?)
  | p => (int32? p).map ([·])

end Reader

mutual

def Shape.check? : Shape → Nat → Wire.Payload → Option Unit
  | .scalar k, _, p => (k.read? p).map (fun _ => ())
  | .many k, _, p =>
    match p with
    | .bytes b => ((Wire.readRun k.wireType b).bind (List.mapM k.read?)).map (fun _ => ())
    | p => (k.read? p).map (fun _ => ())
  | .message known, levels, p =>
    (Reader.body? levels p).bind (fun fields => fields.foldlM (fun _ f => checkField? known (levels - 1) f) ())

def checkField? : List (Nat × Shape) → Nat → Wire.Field → Option Unit
  | [], levels, f => Reader.pass? levels f.2
  | (n, shape) :: known, levels, f => if n = f.1 then shape.check? levels f.2 else checkField? known levels f

end

namespace Shape

def ofForm : OptionForm → Shape
  | .flag => scalar .bool
  | .text => scalar .string
  | .choice _ => scalar .int32

def texts (numbers : List Nat) : List (Nat × Shape) := numbers.map (·, scalar .string)

/-- An option that is written by name. -/
def written : Shape :=
  message ([(2, message [(1, scalar .string), (2, scalar .bool)]), (4, scalar .uint64), (5, scalar .int64),
    (6, scalar .double), (7, scalar .bytes)] ++ texts [3, 8])

def options (s : OptionSubject) : Shape :=
  message (s.known.map (fun o => (o.number, ofForm o.form)) ++ [(Options.writtenNumber, written)])

def sourceInfo : Shape :=
  message [(1, message ([(1, many .int32), (2, many .int32)] ++ texts [3, 4, 6]))]

end Shape

namespace Reader

/-- Options that follow each other count as one message. -/
def options? (subject : OptionSubject) (levels : Nat) (before : Options) (p : Wire.Payload) : Option Options := do
  (Shape.options subject).check? levels p
  let fields ← body? levels p
  some (some (before.getD [] ++ fields))

/-- Reads a message from nothing, field by field. -/
def message? (start : α) (field : Nat → α → Wire.Field → Option α) (levels : Nat) (p : Wire.Payload) : Option α :=
  (body? levels p).bind (fun fields => fields.foldlM (field (levels - 1)) start)

def range (levels : Nat) (r : NumberRange) : Wire.Field → Option NumberRange
  | (1, p) => (int32? p).map (fun n => { r with start := n })
  | (2, p) => (int32? p).map (fun n => { r with stop := n })
  | (_, p) => (pass? levels p).map (fun _ => r)

def extensionRange (levels : Nat) (r : ExtensionRange) : Wire.Field → Option ExtensionRange
  | (3, p) => (options? .extensionRange levels r.options p).map (fun o => { r with options := o })
  | f => (range levels r.toNumberRange f).map (fun n => { r with toNumberRange := n })

def field (levels : Nat) (d : FieldDecl) : Wire.Field → Option FieldDecl
  | (1, p) => (text? p).map (fun s => { d with name := s })
  | (2, p) => (text? p).map (fun s => { d with extendee := some s })
  | (3, p) => (int32? p).map (fun n => { d with number := n })
  | (4, p) => (int32? p).map (fun n => { d with label := Label.ofCode n.toInt.toNat })
  | (5, p) => (int32? p).map (fun n => { d with type := FieldType.ofCode n.toInt.toNat })
  | (6, p) => (text? p).map (fun s => { d with typeName := some s })
  | (7, p) => (text? p).map (fun s => { d with default := some s })
  | (8, p) => (options? .field levels d.options p).map (fun o => { d with options := o })
  | (9, p) => (int32? p).map (fun n => { d with oneof := some n })
  | (10, p) => (text? p).map (fun s => { d with jsonName := some s })
  | (17, p) => (flag? p).map (fun b => { d with proto3Optional := b })
  | (_, p) => (pass? levels p).map (fun _ => d)

def enumValue (levels : Nat) (v : EnumValueDecl) : Wire.Field → Option EnumValueDecl
  | (1, p) => (text? p).map (fun s => { v with name := s })
  | (2, p) => (int32? p).map (fun n => { v with number := n })
  | (3, p) => (options? .enumValue levels v.options p).map (fun o => { v with options := o })
  | (_, p) => (pass? levels p).map (fun _ => v)

def enum (levels : Nat) (d : EnumDecl) : Wire.Field → Option EnumDecl
  | (1, p) => (text? p).map (fun s => { d with name := s })
  | (2, p) => (message? { number := 0, name := "" } enumValue levels p).map (fun v => { d with values := d.values ++ [v] })
  | (3, p) => (options? .enum levels d.options p).map (fun o => { d with options := o })
  | (4, p) => (message? {} range levels p).map (fun r => { d with reserved := d.reserved ++ [r] })
  | (5, p) => (text? p).map (fun _ => d)
  | (_, p) => (pass? levels p).map (fun _ => d)

def oneof (levels : Nat) (d : OneofDecl) : Wire.Field → Option OneofDecl
  | (1, p) => (text? p).map (fun s => { d with name := s })
  | (2, p) => (options? .oneof levels d.options p).map (fun o => { d with options := o })
  | (_, p) => (pass? levels p).map (fun _ => d)

def messageField (nested : Wire.Payload → Option MessageDecl) (levels : Nat) (d : MessageDecl) :
    Wire.Field → Option MessageDecl
  | (1, p) => (text? p).map (fun s => { d with name := s })
  | (2, p) => (message? {} field levels p).map (fun f => { d with fields := d.fields ++ [f] })
  | (3, p) => (nested p).map (fun m => { d with nested := d.nested ++ [m] })
  | (4, p) => (message? {} enum levels p).map (fun e => { d with enums := d.enums ++ [e] })
  | (5, p) => (message? {} extensionRange levels p).map (fun r => { d with ranges := d.ranges ++ [r] })
  | (6, p) => (message? {} field levels p).map (fun f => { d with extensions := d.extensions ++ [f] })
  | (7, p) => (options? .message levels d.options p).map (fun o => { d with options := o })
  | (8, p) => (message? {} oneof levels p).map (fun o => { d with oneofs := d.oneofs ++ [o] })
  | (9, p) => (message? {} range levels p).map (fun r => { d with reserved := d.reserved ++ [r] })
  | (10, p) => (text? p).map (fun _ => d)
  | (_, p) => (pass? levels p).map (fun _ => d)

/-- A message with this many levels below it. -/
def messageDecl : Nat → Wire.Payload → Option MessageDecl
  | 0, _ => none
  | levels + 1, p =>
    (body? (levels + 1) p).bind (fun fields => fields.foldlM (messageField (messageDecl levels) levels) {})

def method (levels : Nat) (d : MethodDecl) : Wire.Field → Option MethodDecl
  | (1, p) => (text? p).map (fun s => { d with name := s })
  | (2, p) => (text? p).map (fun s => { d with input := s })
  | (3, p) => (text? p).map (fun s => { d with output := s })
  | (4, p) => (options? .method levels d.options p).map (fun o => { d with options := o })
  | (5, p) | (6, p) => (flag? p).map (fun _ => d)
  | (_, p) => (pass? levels p).map (fun _ => d)

def service (levels : Nat) (d : ServiceDecl) : Wire.Field → Option ServiceDecl
  | (1, p) => (text? p).map (fun s => { d with name := s })
  | (2, p) => (message? {} method levels p).map (fun m => { d with methods := d.methods ++ [m] })
  | (3, p) => (options? .service levels d.options p).map (fun o => { d with options := o })
  | (_, p) => (pass? levels p).map (fun _ => d)

def file (levels : Nat) (d : FileDecl) : Wire.Field → Option FileDecl
  | (1, p) => (text? p).map (fun s => { d with name := s })
  | (2, p) => (text? p).map (fun s => { d with package := some s })
  | (3, p) => (text? p).map (fun s => { d with imports := d.imports ++ [s] })
  | (4, p) => (messageDecl levels p).map (fun m => { d with messages := d.messages ++ [m] })
  | (5, p) => (message? {} enum levels p).map (fun e => { d with enums := d.enums ++ [e] })
  | (6, p) => (message? {} service levels p).map (fun s => { d with services := d.services ++ [s] })
  | (7, p) => (message? {} field levels p).map (fun f => { d with extensions := d.extensions ++ [f] })
  | (8, p) => (options? .file levels d.options p).map (fun o => { d with options := o })
  | (9, p) => (Shape.sourceInfo.check? levels p).map (fun _ => d)
  | (10, p) => (int32s? p).map (fun ns => { d with publicImports := d.publicImports ++ ns })
  | (11, p) => (int32s? p).map (fun ns => { d with weakImports := d.weakImports ++ ns })
  | (12, p) => (text? p).map (fun s => { d with dialect := some s })
  | (_, p) => (pass? levels p).map (fun _ => d)

def fileSet (files : List FileDecl) : Wire.Field → Option (List FileDecl)
  | (1, p) => (message? {} file depth p).map (fun f => files ++ [f])
  | (_, p) => (pass? depth p).map (fun _ => files)

end Reader

/-- The files of a bundle. -/
def FileDecl.readBundle? (b : Bytes) : Option (List FileDecl) :=
  (Wire.read .plain () b).bind (fun fields => fields.foldlM Reader.fileSet [])

end WireQuery
