import WireQuery.Message.Basic

namespace WireQuery

namespace MessageDef

/-- The key and the value of a map entry, which do not unset each other. The key has no default of its own. -/
def entryPart (ty : MessageDef) : MessageDef :=
  let parts := ty.fields.filter (fun f => f.number = 1 || f.number = 2)
  let part (f : FieldDef) : FieldDef := { f with oneof := none, default := if f.number = 1 then none else f.default }
  { ty with fields := parts.map part, extensions := [] }

/-- An entry before it is read has both parts. -/
def entryStart (ty : MessageDef) : Message := { slots := ty.entryPart.fields.map (fun f => (f, f.initial)) }

end MessageDef

namespace Message

/-- The key of a map entry. -/
def entryKey? (e : Message) : Option Scalar :=
  match slotIn? 1 e.slots with
  | some (.scalar s) => some s
  | _ => none

/-- A later entry takes the place of one with its key. -/
def putEntry (e : Message) : List Message → List Message
  | [] => [e]
  | d :: ds => if d.entryKey? = e.entryKey? then e :: ds else d :: putEntry e ds

end Message

namespace Pool

/-- Maps are read by their length whatever their key says, and a group is read by its own definition. -/
def framing (p : Pool) : Wire.Framing (Option MessageDef) where
  sized ty n := ((ty.bind (·.numbered? n)).map (·.kind.isMap)).getD false
  inside ty n :=
    match ty.bind (·.numbered? n) with
    | some f =>
      match f.kind with
      | .message name => p.message? name
      | _ => none
    | none => none

def readFields (p : Pool) (ty : MessageDef) (b : Bytes) : Option (List Wire.Field) :=
  Wire.read p.framing (some ty) b

/-- Merges a list of fields into a message of a type, as deep as may still be opened. -/
abbrev Nested := MessageDef → Message → List Wire.Field → Option Message

def mergeBody (p : Pool) (nested : Nested) (f : FieldDef) (name : String) (old : Message) (payload : Wire.Payload) :
    Option Message := do
  let ty ← p.message? name
  let fields ← match f.group, payload with
    | true, .group fields => some fields
    | false, .bytes b => p.readFields ty b
    | _, _ => none
  nested ty old fields

def readElement (p : Pool) (nested : Nested) (f : FieldDef) (payload : Wire.Payload) : Option Value :=
  match f.kind with
  | .message name => (p.mergeBody nested f name {} payload).map .message
  | kind => (kind.readScalar? payload).map .scalar

/-- A list takes single elements, and packed runs if its elements can be packed. -/
def mergeList (p : Pool) (nested : Nested) (f : FieldDef) (old : List Value) (payload : Wire.Payload) :
    Option (List Value) :=
  match f.kind.packedType?, payload with
  | some t, .bytes b =>
    ((Wire.readRun t b).bind (List.mapM f.kind.readScalar?)).map (fun ss => old ++ ss.map .scalar)
  | _, payload => (p.readElement nested f payload).map (fun v => old ++ [v])

def mergeSingle (p : Pool) (nested : Nested) (f : FieldDef) (old : Value) (payload : Wire.Payload) : Option Value :=
  match f.kind, old with
  | .message name, .message m => (p.mergeBody nested f name m payload).map .message
  | kind, _ => (kind.readScalar? payload).map .scalar

/-- `entry` merges the parts of a map entry. -/
def mergeValue (p : Pool) (levels : Nat) (nested entry : Nested) (f : FieldDef) (old : Value) (payload : Wire.Payload) :
    Option Value :=
  match f.kind, old, payload with
  | .map name, .map entries, .bytes b => do
    let ty ← p.message? name
    let fields ← p.readFields ty.entryPart b
    let (parts, others) := fields.partition (fun x => x.1 = 1 || x.1 = 2)
    if others.all (fun x => x.2.levels ≤ levels) then
      (entry ty.entryPart ty.entryStart parts).map (fun e => .map (Message.putEntry e entries))
    else none
  | .map _, _, _ => none
  | _, .list vs, payload => if f.isRepeated then (p.mergeList nested f vs payload).map .list else none
  | _, old, payload => if f.isRepeated then none else p.mergeSingle nested f old payload

/-- Fields without a definition are kept. -/
def mergeField (p : Pool) (levels : Nat) (nested entry : Nested) (ty : MessageDef) (m : Message) (x : Wire.Field) :
    Option Message :=
  match ty.numbered? x.1 with
  | some f => (p.mergeValue levels nested entry f (m.get f) x.2).map (m.set f)
  | none => if x.2.groupDepth ≤ levels then some (m.addUnknown x.1 x.2) else none

/-- Maps do not nest directly in the parts of an entry. -/
def mergeParts (p : Pool) (levels : Nat) (nested : Nested) : Nested :=
  fun ty m fields => fields.foldlM (p.mergeField levels nested (fun _ _ _ => none) ty) m

def mergeFields (p : Pool) (levels : Nat) (nested : Nested) : Nested :=
  fun ty m fields => fields.foldlM (p.mergeField levels nested (p.mergeParts levels nested) ty) m

/-- With `levels` messages that may still open inside each other. -/
def merge (p : Pool) : (levels : Nat) → Nested
  | 0 => p.mergeFields 0 (fun _ _ _ => none)
  | levels + 1 => p.mergeFields (levels + 1) (p.merge levels)

def maxLevels : Nat := 100

def read? (p : Pool) (ty : MessageDef) (b : Bytes) : Option Message :=
  (p.readFields ty b).bind (p.merge maxLevels ty {})

end Pool

end WireQuery
