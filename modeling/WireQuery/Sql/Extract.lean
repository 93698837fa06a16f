import WireQuery.Sql.Error

namespace WireQuery

/-- A value with what is to be told beside it. -/
structure Evaluation where
  value : SqlValue
  warnings : List Warning := []
  deriving DecidableEq, Repr

namespace SqlValue

def extractName : String := "protobuf_extract"

/-- A path must be well formed text. -/
def asPath : SqlValue → Except SqlError Path
  | text b =>
    match (Utf8.decode? b).map Path.parse with
    | some (.ok p) => .ok p
    | some (.error e) => .error (.failed (.malformedPath e))
    | none => .error (.argument extractName "path must be TEXT")
  | _ => .error (.argument extractName "path must be TEXT")

/-- Data may be text as well, by its bytes. -/
def asData : SqlValue → Except SqlError Bytes
  | blob b => .ok b
  | text b => .ok b
  | v => .error (.argument extractName ("data must be a BLOB, got " ++ v.typeName))

end SqlValue

/-- A path is read before the other arguments are looked at. -/
def Registry.extractValue (r : Registry) (warnOnUnsigned : Bool) (data type path : SqlValue) :
    Except SqlError Evaluation :=
  if path = .null then .ok ⟨.null, []⟩
  else do
    let p ← path.asPath
    if data = .null ∨ type = .null then .ok ⟨.null, []⟩
    else
      let t ← type.asText 1
      let b ← data.asData
      match r.extract warnOnUnsigned b t p with
      | .ok x => .ok ⟨.ofDatum x.value, x.warnings⟩
      | .error e => .error (.failed e)

end WireQuery
