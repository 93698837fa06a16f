import WireQuery.Report.Basic
import WireQuery.Session.Basic
import WireQuery.Session.Statement

/-!
Running statements one after the other. What a statement did stays done when a later one fails.
-/

namespace WireQuery

/-- A cell of a row, as it is reported. Text that is not well formed is a panic. -/
def SqlValue.read (v : SqlValue) : Except (Halt String) Datum :=
  match v.datum? with
  | some d => .ok d
  | none => .error .panicked

def Outcome.halting (o : Outcome α) : Except (Halt String) α := o.result.mapError .reported

def Connection.call (c : Connection) (call : ExtractCall) : Outcome SqlValue :=
  c.extract call.data call.type call.path

/-- The values of one row, up to the first call that fails. -/
def Connection.terms (c : Connection) : List Term → Outcome (List SqlValue)
  | [] => ⟨.ok [], []⟩
  | .value v :: ts => (c.terms ts).map (v :: ·)
  | .extract call :: ts =>
    let o := c.call call
    match o.result with
    | .error text => ⟨.error text, o.warnings⟩
    | .ok v =>
      let rest := c.terms ts
      ⟨rest.result.map (v :: ·), o.warnings ++ rest.warnings⟩

/-- What running leaves behind. -/
structure Run (α : Type) where
  session : Session
  result : Except (Halt SessionError) α
  warnings : List Warning := []

namespace Session

def sameName (a b : String) : Bool := a.map Char.toLower = b.map Char.toLower

/-- Names kept for the database itself. -/
def isReserved (name : String) : Bool := sameName (String.ofList (name.toList.take 7)) "sqlite_"

/-- Nothing is found in a file that is no database. -/
def table? (s : Session) (name : String) : Option Table :=
  if s.store = .foreign then none else s.tables.find? (fun t => sameName t.name name)

def append (name : String) (v : SqlValue) (tables : List Table) : List Table :=
  tables.map (fun t => if sameName t.name name then { t with values := t.values ++ [v] } else t)

def fail (s : Session) (step : SessionStep) (cause : Option String := none) : Run α :=
  ⟨s, .error (.reported ⟨step, cause⟩), []⟩

def report (s : Session) (columns : List String) (rows : Except (Halt String) (List (List SqlValue)))
    (warnings : List Warning) : Run (Option Report) :=
  match rows.bind (·.mapM (·.mapM SqlValue.read)) with
  | .ok cells => ⟨s, .ok (some ⟨columns, cells⟩), warnings⟩
  | .error halt => ⟨s, .error (halt.map (fun text => ⟨.query, some text⟩)), warnings⟩

def runOne (s : Session) : Statement → Run (Option Report)
  | .select columns =>
    let o := s.connection.terms (columns.map (·.2))
    s.report (columns.map (·.1)) (o.halting.map (fun row => [row])) o.warnings
  | .selectEach column calls =>
    let o := s.connection.extractEach (calls.map (fun x => (x.data, x.type, x.path)))
    s.report [column] (o.halting.map (·.map (fun v => [v]))) o.warnings
  | .listEnum columns q =>
    if s.store = .foreign ∨ q.enum = none then s.fail .prepare
    else
      s.report (columns.map (·.text)) ((s.connection.enumRows q).map (·.map (fun row => columns.map row.column))) []
  | .load column path =>
    let (c, o) := s.connection.load s.files path
    { s with connection := c }.report [column] (o.halting.map (fun v => [[v]])) o.warnings
  | .createTable name =>
    if s.store = .foreign ∨ isReserved name ∨ (s.table? name).isSome then s.fail .prepare
    else ⟨s.keep (s.tables ++ [⟨name, []⟩]), .ok none, []⟩
  | .insert table call =>
    match s.table? table with
    | none => s.fail .prepare
    | some _ =>
      let o := s.connection.call call
      match o.result with
      | .error text => ⟨s, .error (.reported ⟨.execute, some text⟩), o.warnings⟩
      | .ok v => ⟨s.keep (append table v s.tables), .ok none, o.warnings⟩
  | .selectTable name =>
    match s.table? name with
    | none => s.fail .prepare
    | some t => s.report ["a"] (.ok (t.values.map (fun v => [v]))) []
  | .malformed => s.fail .prepare

/-- The reports of the statements that have rows. -/
def run (s : Session) : List Statement → Run (List Report)
  | [] => ⟨s, .ok [], []⟩
  | st :: sts =>
    let one := s.runOne st
    match one.result with
    | .error e => ⟨one.session, .error e, one.warnings⟩
    | .ok r =>
      let rest := one.session.run sts
      ⟨rest.session, rest.result.map (r.toList ++ ·), one.warnings ++ rest.warnings⟩

end Session

end WireQuery
