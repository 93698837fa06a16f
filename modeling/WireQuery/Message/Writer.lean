import WireQuery.Message.Basic

namespace WireQuery

/-- The elements of a run, perhaps none. -/
def packRun (ps : List Wire.Payload) : Wire.Payload := .bytes (ps.flatMap Wire.Payload.body)

def FieldDef.wrap (f : FieldDef) (fields : List Wire.Field) : Wire.Payload :=
  if f.group then .group fields else .bytes (Wire.write fields)

mutual

def Value.payloads (f : FieldDef) : Value → List Wire.Payload
  | .scalar s => [s.payload]
  | .message m => [f.wrap m.toFields]
  | .list vs => if f.packed then [packRun (elementPayloads f vs)] else elementPayloads f vs
  | .map entries => entryPayloads entries

def elementPayloads (f : FieldDef) : List Value → List Wire.Payload
  | [] => []
  | v :: vs => v.payloads f ++ elementPayloads f vs

def entryPayloads : List Message → List Wire.Payload
  | [] => []
  | e :: es => .bytes (Wire.write e.toFields) :: entryPayloads es

def Message.toFields : Message → List Wire.Field
  | ⟨slots, extras⟩ => slotFields slots ++ extraFields extras

def slotFields : List (FieldDef × Value) → List Wire.Field
  | [] => []
  | (f, v) :: slots => (if f.isSet v then (v.payloads f).map (f.number, ·) else []) ++ slotFields slots

def extraFields : List (Nat × Extra) → List Wire.Field
  | [] => []
  | (_, .extension f v) :: extras =>
    (if f.isSet v then (v.payloads f).map (f.number, ·) else []) ++ extraFields extras
  | (n, .unknown ps) :: extras => ps.map (n, ·) ++ extraFields extras

end

def Message.encode (m : Message) : Bytes := Wire.write m.toFields

end WireQuery
