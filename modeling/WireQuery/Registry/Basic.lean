import WireQuery.Error
import WireQuery.Schema.Options.Setting

/-!
A registry holds named types from the bundles it accepted. A name never changes its meaning: a bundle that
gives a loaded name another definition is rejected whole.
-/

namespace WireQuery

structure Registry where
  types : List (String × TypeDescriptor) := []

structure LoadReport where
  /-- New names in the order of the bundle. -/
  added : List String := []
  alreadyPresent : Nat := 0
  deriving DecidableEq, Repr

namespace Registry

def empty : Registry := {}

def get? (r : Registry) (name : String) : Option TypeDescriptor := r.types.lookup name

def message? (r : Registry) (name : String) : Except Error MessageType :=
  match r.get? name with
  | some (.message m) => .ok m
  | _ => .error (.unknownType .message name)

def enum? (r : Registry) (name : String) : Except Error EnumType :=
  match r.get? name with
  | some (.enum e) => .ok e
  | _ => .error (.unknownType .enum name)

def namesOf (r : Registry) (kind : TypeKind) : List String :=
  ((r.types.filter (fun t => t.2.kind = kind)).map (·.1)).mergeSort (fun a b => a ≤ b)

def messageNames (r : Registry) : List String := r.namesOf .message

def enumNames (r : Registry) : List String := r.namesOf .enum

def size (r : Registry) : Nat := r.types.length

def isEmpty (r : Registry) : Bool := r.types.isEmpty

/-- Whether a descriptor's name is free or stands for the same definition. -/
def accepts (r : Registry) (d : TypeDescriptor) : Bool :=
  match r.get? d.name with
  | some known => known.sameDefinition d
  | none => true

/-- The first loaded descriptor of a name stays. -/
def add (r : Registry) (report : LoadReport) (d : TypeDescriptor) : Registry × LoadReport :=
  if (r.get? d.name).isSome then (r, { report with alreadyPresent := report.alreadyPresent + 1 })
  else (⟨r.types ++ [(d.name, d)]⟩, { report with added := report.added ++ [d.name] })

def addAll (r : Registry) (ds : List TypeDescriptor) : Registry × LoadReport :=
  ds.foldl (fun (r, report) d => r.add report d) (r, {})

end Registry

def TypeDescriptor.ofBundle (b : Bytes) : Except Error (List TypeDescriptor) :=
  match Pool.decode? b with
  | some p => .ok p.descriptors
  | none => .error (.invalidBundle b)

/-- The host's answer whether bundles may be loaded. -/
inductive Gate where
  | allow
  | deny
  | unavailable (reason : String)
  deriving DecidableEq, Repr

def Gate.check : Gate → Except Error Unit
  | allow => .ok ()
  | deny => .error .loadDenied
  | unavailable reason => .error (.permissionUnavailable reason)

/-- A load: the registry after it, its report or error, and warnings. -/
structure Load where
  registry : Registry
  result : Except Error LoadReport
  warnings : List Warning := []

namespace Registry

def insert (r : Registry) (b : Bytes) : Load :=
  match TypeDescriptor.ofBundle b with
  | .error e => ⟨r, .error e, []⟩
  | .ok ds =>
    match ds.find? (fun d => !r.accepts d) with
    | some d => ⟨r, .error (.schemaConflict d.name), [.conflict d.name]⟩
    | none =>
      let (r, report) := r.addAll ds
      ⟨r, .ok report, []⟩

def load (r : Registry) (gate : Gate) (b : Bytes) : Load :=
  match gate.check with
  | .error e => ⟨r, .error e, []⟩
  | .ok () => r.insert b

end Registry

inductive EnumFilter where
  | all
  | number (n : Int32)
  | name (s : String)
  deriving DecidableEq, Repr

def EnumType.list (e : EnumType) : EnumFilter → List EnumValue
  | .all => e.values
  | .number n => e.valuesFor n
  | .name s => (e.valueNamed? s).toList

def Registry.listEnum (r : Registry) (name : String) (filter : EnumFilter) : Except Error (List EnumValue) :=
  (r.enum? name).map (·.list filter)

end WireQuery
