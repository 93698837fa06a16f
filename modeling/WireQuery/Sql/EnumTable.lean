import WireQuery.Registry.Basic
import WireQuery.Sql.Compare
import WireQuery.Sql.Error

/-!
A table of the declarations of an enum. Its first argument is the name of the enum; equality with a number or a
name may narrow the listing, and every condition is checked again on the rows that come out.
-/

namespace WireQuery

/-- How the rows of a query are looked up. -/
inductive EnumPlan where
  | fullScan
  | byNumber
  | byName
  deriving DecidableEq, Repr

/-- What a query asks of the rows. -/
structure EnumQuery where
  enum : Option SqlValue := none
  number : Option SqlValue := none
  name : Option SqlValue := none
  /-- No number below this. -/
  least : Option SqlValue := none
  rowid : Option SqlValue := none

structure EnumRow where
  rowid : Nat
  number : Int32
  name : String
  enum : String
  deriving DecidableEq, Repr

namespace EnumQuery

/-- An equality of names narrows best. -/
def plan (q : EnumQuery) : EnumPlan :=
  if q.name.isSome then .byName else if q.number.isSome then .byNumber else .fullScan

/-- The value that the plan looks up. -/
def key (q : EnumQuery) : Option SqlValue :=
  match q.plan with
  | .byName => q.name
  | .byNumber => q.number
  | .fullScan => none

def accepts (q : EnumQuery) (row : EnumRow) : Bool :=
  q.number.all (·.equalsNumber row.number.toInt) && q.name.all (·.equalsText row.name) &&
    q.least.all (·.atMostNumber row.number.toInt) && q.rowid.all (·.equalsNumber row.rowid)

end EnumQuery

namespace EnumPlan

/-- What the value to look up lets through, or nothing for a number that no declaration can have. A value that
is no key of the plan lets all through. -/
def filter? : EnumPlan → Option Datum → Option EnumFilter
  | byNumber, some (.integer i) =>
    if -2147483648 ≤ i.toInt ∧ i.toInt ≤ 2147483647 then some (.number i.toInt32) else none
  | byName, some (.text s) => some (.name s)
  | _, _ => some .all

end EnumPlan

/-- Where a listing stands. -/
structure EnumCursor where
  enum : String := ""
  values : List EnumValue := []
  position : Nat := 0
  deriving DecidableEq, Repr

namespace EnumCursor

/-- An argument of a listing. Text that is not well formed is no error: it takes the process down. -/
def argument (v : SqlValue) : Except (Halt SqlError) Datum :=
  match v.datum? with
  | some d => .ok d
  | none => .error .aborted

def enumName (v : SqlValue) : Except (Halt SqlError) String := do
  match ← argument v with
  | .text s => .ok s
  | _ => .error (.reported (.argument "protobuf_enum" ("enum type name must be TEXT, got " ++ v.typeName)))

/-- Starts a listing anew. A null name lists nothing; the value to look up is read before the enum is looked for. -/
def start (r : Registry) (c : EnumCursor) (plan : EnumPlan) (enum : SqlValue) (key : Option SqlValue) :
    Except (Halt SqlError) EnumCursor :=
  if enum = .null then .ok { c with values := [], position := 0 }
  else do
    let name ← enumName enum
    let key ← key.mapM argument
    match r.enum? name with
    | .error e => .error (.reported (.failed e))
    | .ok e => .ok ⟨name, ((plan.filter? key).map e.list).getD [], 0⟩

def rowAt (c : EnumCursor) (i : Nat) (v : EnumValue) : EnumRow := ⟨i + 1, v.number, v.name, c.enum⟩

def row? (c : EnumCursor) : Option EnumRow := c.values[c.position]?.map (c.rowAt c.position)

def next (c : EnumCursor) : EnumCursor := { c with position := c.position + 1 }

/-- At most so many rows from here on: each is read before the cursor moves on. -/
def rowsUpTo : Nat → EnumCursor → List EnumRow
  | 0, _ => []
  | n + 1, c =>
    match c.row? with
    | some row => row :: rowsUpTo n c.next
    | none => []

/-- A cursor moves on no more often than it has values. -/
def rows (c : EnumCursor) : List EnumRow := rowsUpTo c.values.length c

end EnumCursor

/-- The rows of a query on a cursor left by another one. -/
def Registry.enumRows (r : Registry) (c : EnumCursor) (q : EnumQuery) : Except (Halt SqlError) (List EnumRow) :=
  match q.enum with
  | none => .error (.reported .noPlan)
  | some enum => (c.start r q.plan enum q.key).map (fun c => c.rows.filter q.accepts)

end WireQuery
