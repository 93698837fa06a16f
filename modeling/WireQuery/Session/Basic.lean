import WireQuery.Sql.Connection

namespace WireQuery

/-- A table of one column. -/
structure Table where
  name : String
  values : List SqlValue := []
  deriving DecidableEq, Repr

/-- Where the tables of a session are kept. -/
inductive Store where
  | memory
  | file (names : List String)
  /-- A file that holds something else. -/
  | foreign
  deriving DecidableEq, Repr

structure Session where
  connection : Connection := {}
  files : Files := {}
  /-- The tables of databases in files. -/
  saved : List (List String × List Table) := []
  store : Store := .memory
  /-- The tables of the session's own database. -/
  tables : List Table := []

inductive SessionStep where
  | openDatabase (path : String)
  | loadBundle (path : String)
  | readQuery (path : String)
  | readInput
  | prepare
  | execute
  | query
  deriving DecidableEq, Repr

def SessionStep.failure : SessionStep → String
  | openDatabase path => "Failed to open database: " ++ path
  | loadBundle path => "Failed to load schema bundle: " ++ path
  | readQuery path => "Failed to read query file: " ++ path
  | readInput => "Failed to read SQL from stdin"
  | prepare => "Failed to prepare statement"
  | execute => "Statement failed"
  | query => "Query failed"

/-- The step that failed, and why, where that is told. -/
structure SessionError where
  step : SessionStep
  cause : Option String := none
  deriving DecidableEq, Repr

def SessionError.line (e : SessionError) : String := "Error: " ++ e.step.failure

/-- The failure and its cause. -/
def SessionError.text (e : SessionError) : String :=
  match e.cause with
  | some cause => e.line ++ "\n\nCaused by:\n    " ++ cause
  | none => e.line

namespace Session

/-- Names that stand for no file. -/
def isMemory (path : String) : Bool := path = "" || path = ":memory:"

/-- The first bytes of a database that has tables. -/
def signature : Bytes := Utf8.encode "SQLite format 3\x00"

def lookup (s : Session) (names : List String) : List Table := (s.saved.lookup names).getD []

/-- Turns to a database on a path: one in memory is empty, and a file that does not exist is made. -/
def use (s : Session) (path : String) : Except SessionError Session :=
  if isMemory path then .ok { s with store := .memory, tables := [] }
  else
    let failed : SessionError := ⟨.openDatabase path, none⟩
    match s.files.locate path with
    | .ok names =>
      match s.files.entry? names with
      | some (.file b) =>
        if b = [] then .ok { s with store := .file names, tables := [] }
        else if b = signature then .ok { s with store := .file names, tables := s.lookup names }
        else .ok { s with store := .foreign, tables := [] }
      | _ => .error failed
    | .error .notFound =>
      match s.files.placeFor path with
      | .ok names => .ok { s with files := s.files.set names (.file []), store := .file names, tables := [] }
      | .error _ => .error failed
    | .error _ => .error failed

/-- A new session among the same files, with nothing loaded and loading allowed. -/
def reopen (s : Session) (config : Config) (database : Option String) : Except SessionError Session :=
  { s with connection := { config := config, codec := s.connection.codec } }.use (database.getD "")

/-- The tables change, and with them the file they are kept in. -/
def keep (s : Session) (tables : List Table) : Session :=
  match s.store with
  | .file names =>
    { s with
      tables := tables
      saved := (names, tables) :: s.saved.filter (fun d => d.1 ≠ names)
      files := s.files.set names (.file signature) }
  | _ => { s with tables := tables }

def loadBundle (s : Session) (path : String) : Session × Except SessionError Unit × List Warning :=
  let (c, o) := s.connection.load s.files (.ofText path)
  let result := match o.result with
    | .ok _ => .ok ()
    | .error text => .error ⟨.loadBundle path, some text⟩
  ({ s with connection := c }, result, o.warnings)

end Session

end WireQuery
