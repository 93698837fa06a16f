import WireQuery.CommandLine.Arguments
import WireQuery.Session.Run

namespace WireQuery

/-- What a run of the program finds around it. -/
structure Surroundings where
  files : Files := {}
  bundlePath : Option String := none
  warnUnsigned : Option String := none
  input : Bytes := []
  codec : Codec := {}

/-- Either the arguments end the program, or it has output, perhaps an error, and warnings. -/
inductive Finish where
  | arguments (stop : ArgumentStop)
  | ran (result : Except (Halt SessionError) String) (warnings : List Warning)

/-- An aborted process has no code; this is what a shell says of it. -/
def Halt.code : Halt ε → Nat
  | reported _ => 1
  | panicked => 101
  | aborted => 134

/-- Help and version are no failure. -/
def Finish.code : Finish → Nat
  | arguments .help => 0
  | arguments .version => 0
  | arguments _ => 2
  | ran (.ok _) _ => 0
  | ran (.error halt) _ => halt.code

def programName : String := "protosql"

def programVersion : String := "0.1.0"

/-- The oldest version of SQLite that has all that is needed, as one number. -/
def oldestSqlite : Nat := 3013000

def usage : String := "Usage: " ++ programName ++ " [OPTIONS] [DATABASE]\n"

def Finish.output : Finish → String
  | arguments .help => usage
  | arguments .version => programName ++ " " ++ programVersion ++ "\n"
  | arguments _ => ""
  | ran (.ok text) _ => text
  | ran (.error _) _ => ""

/-- What is told apart from the output. -/
def Finish.complaint : Finish → String
  | arguments .help => ""
  | arguments .version => ""
  | arguments _ => usage
  | ran result warnings =>
    String.join (warnings.map (fun w => w.line ++ "\n")) ++
      match result with
      | .error (.reported e) => e.text ++ "\n"
      | _ => ""

namespace Session

/-- Loads bundles up to the first that fails. -/
def loadBundles (s : Session) : List String → Run Unit
  | [] => ⟨s, .ok (), []⟩
  | path :: paths =>
    let (s, result, warnings) := s.loadBundle path
    match result with
    | .error e => ⟨s, .error (.reported e), warnings⟩
    | .ok () =>
      let rest := s.loadBundles paths
      ⟨rest.session, rest.result, warnings ++ rest.warnings⟩

end Session

def underline : String := String.ofList (List.replicate 50 '-')

/-- A message by its name, and its fields below it. -/
def MessageType.lines (name : String) (m : MessageType) : List String :=
  ("  " ++ name) :: m.fields.map (fun f => "    " ++ f.text ++ ";")

def Registry.typeLines (r : Registry) : List String :=
  ["Message Types:", underline] ++
    r.messageNames.flatMap (fun name => match r.message? name with
      | .ok m => m.lines name
      | .error _ => ["  " ++ name]) ++
    ["", "Enum Types:", underline] ++ r.enumNames.map ("  " ++ ·)

namespace Program

/-- The text of the statements; it must be well formed. -/
def script (around : Surroundings) (files : Files) : StatementSource → Except SessionError String
  | .inline text => .ok text
  | .file path =>
    match (files.read path).toOption.bind Utf8.decode? with
    | some text => .ok text
    | none => .error ⟨.readQuery path, none⟩
  | .input =>
    match Utf8.decode? around.input with
    | some text => .ok text
    | none => .error ⟨.readInput, none⟩

/-- `statements` tells what a text asks for. Nothing is put out if a statement fails. -/
def runScript (statements : String → List Statement) (around : Surroundings) (a : Arguments) (s : Session) :
    Run String :=
  match script around s.files a.source with
  | .error e => ⟨s, .error (.reported e), []⟩
  | .ok text =>
    let r := s.run (statements text)
    ⟨r.session, r.result.map (fun reports => String.join (reports.map (·.text a.format))), r.warnings⟩

def work (statements : String → List Statement) (around : Surroundings) (a : Arguments) (s : Session) : Run String :=
  let loaded := s.loadBundles a.bundles
  match loaded.result with
  | .error e => ⟨loaded.session, .error e, loaded.warnings⟩
  | .ok () =>
    if a.listTypes then
      let lines := loaded.session.connection.registry.typeLines
      ⟨loaded.session, .ok (String.join (lines.map (· ++ "\n"))), loaded.warnings⟩
    else
      let r := runScript statements around a loaded.session
      ⟨r.session, r.result, loaded.warnings ++ r.warnings⟩

def run (statements : String → List Statement) (around : Surroundings) (argv : List String) : Finish :=
  match Arguments.parse argv with
  | .error stop => .arguments stop
  | .ok a =>
    let config := Config.ofVariables around.bundlePath around.warnUnsigned
    match ({ connection := { codec := around.codec }, files := around.files } : Session).reopen config a.database with
    | .error e => .ran (.error (.reported e)) []
    | .ok s =>
      let r := work statements around a s
      .ran r.result r.warnings

end Program

end WireQuery
