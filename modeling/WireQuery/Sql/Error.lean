import WireQuery.Sql.Value

namespace WireQuery

inductive SqlError where
  | failed (e : Error)
  /-- A function's own complaint about an argument. -/
  | argument (function detail : String)
  | argumentType (type : String) (index : Nat)
  | malformedText (index : Nat) (fault : Utf8.Fault)
  /-- A table that needs an argument has none. -/
  | noPlan
  deriving DecidableEq, Repr

namespace SqlError

def message (codec : Codec) : SqlError → String
  | failed e => e.message codec
  | argument function detail => function ++ ": " ++ detail
  | argumentType type index => "Invalid function parameter type " ++ type ++ " at index " ++ Decimal.natText index
  | malformedText index fault =>
    "Conversion error from type Text at index: " ++ Decimal.natText index ++ ", " ++ fault.message
  | noPlan => "no query solution"

/-- Complaints about arguments are of no kind. -/
def kind? : SqlError → Option ErrorKind
  | failed e => some e.kind
  | _ => none

/-- What is reported of a function's error; one that holds a zero character cannot be passed on. -/
def functionText (codec : Codec) (e : SqlError) : String :=
  if (e.message codec).toList.contains '\x00' then "constraint failed" else e.message codec

/-- What is reported of a table's error; zero characters in it are made visible. -/
def tableText (codec : Codec) (e : SqlError) : String :=
  String.ofList ((e.message codec).toList.map (fun c => if c = '\x00' then '␀' else c))

end SqlError

/-- How a step ends that has no result. -/
inductive Halt (ε : Type) where
  | reported (e : ε)
  /-- The program panics, and nothing after the step is run. -/
  | panicked
  /-- It panics below the database, where a panic cannot unwind: the process is aborted. -/
  | aborted
  deriving DecidableEq, Repr

def Halt.map (f : ε → δ) : Halt ε → Halt δ
  | reported e => .reported (f e)
  | panicked => .panicked
  | aborted => .aborted

/-- Text of an argument, which must be of type text and well formed. -/
def SqlValue.asText (index : Nat) : SqlValue → Except SqlError String
  | .text b =>
    match Utf8.decode? b with
    | some s => .ok s
    | none => .error (.malformedText index ((Utf8.fault? b).getD ⟨0, none⟩))
  | v => .error (.argumentType v.typeName index)

theorem SqlValue.asText_ofText (index : Nat) (s : String) : (SqlValue.ofText s).asText index = .ok s := by
  simp [SqlValue.ofText, SqlValue.asText, Utf8.decode?_encode]

end WireQuery
