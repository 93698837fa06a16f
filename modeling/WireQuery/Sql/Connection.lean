import WireQuery.Config
import WireQuery.Sql.EnumTable
import WireQuery.Sql.Extract

namespace WireQuery

/-- What a call gives, and what is to be told beside it. -/
structure Outcome (α : Type) where
  result : Except String α
  warnings : List Warning := []

def Outcome.map (f : α → β) (o : Outcome α) : Outcome β := ⟨o.result.map f, o.warnings⟩

structure Connection where
  registry : Registry := .empty
  config : Config := {}
  loading : Bool := true
  codec : Codec := {}

namespace Connection

def gate (c : Connection) : Gate := if c.loading then .allow else .deny

/-- The path must be text before the gate is asked. -/
def load (c : Connection) (fs : Files) (path : SqlValue) : Connection × Outcome SqlValue :=
  match path.asText 0 with
  | .error e => (c, ⟨.error (e.functionText c.codec), []⟩)
  | .ok p =>
    let l := c.registry.loadFile c.config fs c.gate p
    match l.result with
    | .ok _ => ({ c with registry := l.registry }, ⟨.ok .null, l.warnings⟩)
    | .error e => ({ c with registry := l.registry }, ⟨.error ((SqlError.failed e).functionText c.codec), l.warnings⟩)

def extract (c : Connection) (data type path : SqlValue) : Outcome SqlValue :=
  match c.registry.extractValue c.config.warnOnUnsigned data type path with
  | .ok x => ⟨.ok x.value, x.warnings⟩
  | .error e => ⟨.error (e.functionText c.codec), []⟩

/-- One value for each triple of arguments; the first failure ends it. -/
def extractEach (c : Connection) : List (SqlValue × SqlValue × SqlValue) → Outcome (List SqlValue)
  | [] => ⟨.ok [], []⟩
  | (data, type, path) :: rows =>
    let o := c.extract data type path
    match o.result with
    | .error text => ⟨.error text, o.warnings⟩
    | .ok v =>
      let rest := c.extractEach rows
      ⟨rest.result.map (v :: ·), o.warnings ++ rest.warnings⟩

def enumRows (c : Connection) (q : EnumQuery) : Except (Halt String) (List EnumRow) :=
  (c.registry.enumRows {} q).mapError (·.map (SqlError.tableText c.codec))

/-- The listings of several enums, one after the other on one cursor. -/
def enumEach (c : Connection) (enums : List SqlValue) : Except (Halt String) (List EnumRow) :=
  (enums.mapM (fun e => c.enumRows { enum := some e })).map List.flatten

end Connection

end WireQuery
