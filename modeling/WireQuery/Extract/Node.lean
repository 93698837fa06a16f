import WireQuery.Error
import WireQuery.Message.Reader

namespace WireQuery

inductive Node where
  | message (type : MessageDef) (m : Message)
  /-- A repeated field that waits for an index. -/
  | repeated (field : FieldDef) (items : List Value)
  | enum (number : Int32) (type : EnumDef)
  | single (v : Value)
  /-- A message field that is not set; every path from it leads here. -/
  | absent

namespace Node

/-- One value of a field by the kind of the field. -/
def ofValue (p : Pool) (kind : Kind) (v : Value) : Node :=
  match kind, v with
  | .message name, .message m => ((p.message? name).map (.message · m)).getD (.single v)
  | .enum name, .scalar (.enum n) => ((p.enum? name).map (.enum n ·)).getD (.single v)
  | _, v => .single v

def field (p : Pool) (type : MessageDef) (m : Message) (name : String) : Except Error Node :=
  match type.field? name with
  | none => .error (.unknownField name type.name)
  | some f =>
    match f.kind with
    | .map _ => .error (.invalidPath (.intoMap name))
    | kind =>
      if f.isRepeated then
        match m.get f with
        | .list vs => .ok (.repeated f vs)
        | _ => .error (.invalidPath (.noList name))
      else
        match kind with
        | .message _ => if m.has f then .ok (ofValue p kind (m.get f)) else .ok .absent
        | _ => .ok (ofValue p kind (m.get f))

/-- A negative index counts from the end. -/
def position? (index : Int64) (length : Nat) : Option Nat :=
  let i := index.toInt
  let i := if i < 0 then i + length else i
  if 0 ≤ i ∧ i < length then some i.toNat else none

def index (p : Pool) (f : FieldDef) (items : List Value) (i : Int64) : Except Error Node :=
  match (position? i items.length).bind (items[·]?) with
  | some v => .ok (ofValue p f.kind v)
  | none => .error (.indexOutOfRange i f.name items.length)

end Node

end WireQuery
