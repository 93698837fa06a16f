import WireQuery.Report.Layout

/-!
Command-line arguments. An option's value may follow it, or be attached to it. A value that follows is taken up
only when the next argument has been understood, so an unknown argument after it is reported first.
-/

namespace WireQuery

structure Arguments where
  database : Option String := none
  bundles : List String := []
  query : Option String := none
  queryFile : Option String := none
  format : ReportFormat := .table
  listTypes : Bool := false
  verbose : Nat := 0
  deriving DecidableEq, Repr

/-- Where the statements come from. -/
inductive StatementSource where
  | inline (text : String)
  | file (path : String)
  | input
  deriving DecidableEq, Repr

def Arguments.source (a : Arguments) : StatementSource :=
  match a.query, a.queryFile with
  | some text, _ => .inline text
  | none, some path => .file path
  | none, none => .input

/-- Why no arguments come out; help and version are asked for. -/
inductive ArgumentStop where
  | help
  | version
  | unknownArgument
  | invalidValue
  | tooManyValues
  | conflict
  deriving DecidableEq, Repr

/-- What takes a value. -/
inductive ValueSlot where
  | database
  | bundle
  | query
  | queryFile
  | format
  deriving DecidableEq, Repr

inductive Switch where
  | listTypes
  | verbose
  | help
  | version
  deriving DecidableEq, Repr

inductive ArgumentOption where
  | valued (slot : ValueSlot)
  | switch (s : Switch)
  deriving DecidableEq, Repr

namespace ArgumentOption

def ofLong? : String → Option ArgumentOption
  | "load" => some (valued .bundle)
  | "execute" => some (valued .query)
  | "file" => some (valued .queryFile)
  | "format" => some (valued .format)
  | "list-types" => some (switch .listTypes)
  | "verbose" => some (switch .verbose)
  | "help" => some (switch .help)
  | "version" => some (switch .version)
  | _ => none

def ofShort? : Char → Option ArgumentOption
  | 'l' => some (valued .bundle)
  | 'e' => some (valued .query)
  | 'f' => some (valued .queryFile)
  | 'v' => some (switch .verbose)
  | 'h' => some (switch .help)
  | 'V' => some (switch .version)
  | _ => none

end ArgumentOption

def ReportFormat.ofName? : String → Option ReportFormat
  | "table" => some .table
  | "csv" => some .csv
  | "json" => some .json
  | _ => none

/-- Arguments as far as they have been read. -/
structure ArgumentDraft where
  database : Option String := none
  bundles : List String := []
  query : Option String := none
  queryFile : Option String := none
  format : Option ReportFormat := none
  listTypes : Bool := false
  verbose : Nat := 0
  /-- What is waiting for its value, or has one that is not yet taken up. -/
  pending : Option (ValueSlot × Option String) := none
  /-- All that follows is without a name. -/
  plain : Bool := false

namespace ArgumentDraft

def maxVerbose : Nat := 255

/-- A path is not empty. -/
def path (s : String) : Except ArgumentStop String := if s = "" then .error .invalidValue else .ok s

/-- Only bundles may be given twice. -/
def once (old : Option α) : Except ArgumentStop Unit := if old.isSome then .error .conflict else .ok ()

def assign (d : ArgumentDraft) (slot : ValueSlot) (s : String) : Except ArgumentStop ArgumentDraft :=
  match slot with
  | .bundle => do return { d with bundles := d.bundles ++ [← path s] }
  | .database => do
    once d.database
    return { d with database := some (← path s) }
  | .query => do
    once d.query
    return { d with query := some s }
  | .queryFile => do
    once d.queryFile
    return { d with queryFile := some (← path s) }
  | .format => do
    once d.format
    match ReportFormat.ofName? s with
    | some f => return { d with format := some f }
    | none => .error .invalidValue

/-- Takes up what is pending. -/
def settle (d : ArgumentDraft) : Except ArgumentStop ArgumentDraft :=
  match d.pending with
  | none => .ok d
  | some (_, none) => .error .invalidValue
  | some (slot, some s) => { d with pending := none }.assign slot s

def flip (d : ArgumentDraft) : Switch → Except ArgumentStop ArgumentDraft
  | .listTypes => if d.listTypes then .error .conflict else .ok { d with listTypes := true }
  | .verbose => .ok { d with verbose := min (d.verbose + 1) maxVerbose }
  | .help => .error .help
  | .version => .error .version

def long (d : ArgumentDraft) (name : String) (attached : Option String) : Except ArgumentStop ArgumentDraft :=
  match ArgumentOption.ofLong? name, attached with
  | none, _ => .error .unknownArgument
  | some (.valued slot), some s => do (← d.settle).assign slot s
  | some (.valued slot), none => do return { ← d.settle with pending := some (slot, none) }
  | some (.switch _), some _ => .error .tooManyValues
  | some (.switch s), none => do (← d.settle).flip s

/-- What follows a letter that takes a value is its value, perhaps after an equals sign. -/
def letters (d : ArgumentDraft) : List Char → Except ArgumentStop ArgumentDraft
  | [] => .ok d
  | c :: r =>
    match ArgumentOption.ofShort? c with
    | none => .error .unknownArgument
    | some (.switch s) => do (← (← d.settle).flip s).letters r
    | some (.valued slot) => do
      let d ← d.settle
      match r with
      | [] => return { d with pending := some (slot, none) }
      | '=' :: r => d.assign slot (String.ofList r)
      | r => d.assign slot (String.ofList r)

def hasDatabase (d : ArgumentDraft) : Bool :=
  d.database.isSome || d.pending.any (fun p => p.1 = .database)

/-- The one argument without a name is the database. -/
def unnamed (d : ArgumentDraft) (s : String) : Except ArgumentStop ArgumentDraft :=
  if d.hasDatabase then .error .unknownArgument
  else do return { ← d.settle with pending := some (.database, some s) }

def splitEquals (s : List Char) : List Char × Option (List Char) :=
  match s.dropWhile (· ≠ '=') with
  | _ :: r => (s.takeWhile (· ≠ '='), some r)
  | [] => (s, none)

def next (d : ArgumentDraft) (s : String) : Except ArgumentStop ArgumentDraft :=
  if d.plain then d.unnamed s
  else
    match s.toList with
    | ['-', '-'] => .ok { d with plain := true }
    | '-' :: '-' :: r =>
      let (name, attached) := splitEquals r
      d.long (String.ofList name) (attached.map String.ofList)
    | '-' :: c :: r => d.letters (c :: r)
    | _ =>
      match d.pending with
      | some (slot, none) => .ok { d with pending := some (slot, some s) }
      | _ => d.unnamed s

/-- A query and a file of queries exclude each other. -/
def finish (d : ArgumentDraft) : Except ArgumentStop Arguments := do
  let d ← d.settle
  if d.query.isSome && d.queryFile.isSome then .error .conflict
  else
    return { database := d.database, bundles := d.bundles, query := d.query, queryFile := d.queryFile,
             format := d.format.getD .table, listTypes := d.listTypes, verbose := d.verbose }

end ArgumentDraft

def Arguments.parse (argv : List String) : Except ArgumentStop Arguments := do
  (← argv.foldlM ArgumentDraft.next {}).finish

end WireQuery
