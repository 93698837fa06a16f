import WireQuery.Extract.Walk
import WireQuery.Proofs.Registry.Load
import WireQuery.Samples

namespace WireQuery

theorem ok_of_toOption {x : Except Error α} (h : x.toOption = some a) : x = .ok a := by
  cases x with
  | error e => contradiction
  | ok b => rw [← Option.some.inj h]

theorem exists_of_isOk {x : Except Error α} (h : x.isOk = true) : ∃ a, x = .ok a := by
  cases x with
  | error e => contradiction
  | ok a => exact ⟨a, rfl⟩

inductive Request where
  | load (gate : Gate) (source : BundleSource)
  | get (name : String)
  | message (name : String)
  | enum (name : String)
  | names (kind : TypeKind)
  | size
  | list (name : String) (filter : EnumFilter)
  | extract (warnOnUnsigned : Bool) (b : Bytes) (type : String) (path : Path)
  | extractText (warnOnUnsigned : Bool) (b : Bytes) (type path : String)

inductive Answer where
  | load (result : Except Error LoadReport) (warnings : List Warning)
  | descriptor (d : Option TypeDescriptor)
  | message (m : Except Error MessageType)
  | enum (e : Except Error EnumType)
  | names (names : List String)
  | size (n : Nat)
  | values (vs : Except Error (List EnumValue))
  | extraction (x : Except Error Extraction)

namespace Registry

def serve (r : Registry) : Request → Registry × Answer
  | .load gate source =>
    let l := r.loadFrom gate source
    (l.registry, .load l.result l.warnings)
  | .get name => (r, .descriptor (r.get? name))
  | .message name => (r, .message (r.message? name))
  | .enum name => (r, .enum (r.enum? name))
  | .names kind => (r, .names (r.namesOf kind))
  | .size => (r, .size r.size)
  | .list name filter => (r, .values (r.listEnum name filter))
  | .extract warn b type path => (r, .extraction (r.extract warn b type path))
  | .extractText warn b type path => (r, .extraction (r.extractText warn b type path))

def run (r : Registry) (requests : List Request) : Registry := requests.foldl (fun r q => (r.serve q).1) r

theorem run_append (r : Registry) (before after : List Request) :
    r.run (before ++ after) = (r.run before).run after := List.foldl_append

theorem addAll_keeps {r : Registry} (h : r.get? name = some d) (ds : List TypeDescriptor) :
    (r.addAll ds).1.get? name = some d := by
  rw [get?_addAll, h, Option.some_or]

theorem loadFrom_keeps {r : Registry} (h : r.get? name = some d) (gate : Gate) (source : BundleSource) :
    (r.loadFrom gate source).registry.get? name = some d := by
  have hl := loadFrom_loads r gate source
  generalize r.loadFrom gate source = l at hl
  cases hl with
  | accepted _ _ _ _ => exact addAll_keeps h _
  | _ => exact h

/-- An empty registry accepts every schema that the gate lets through, and then holds what it lists. -/
theorem get?_first (hg : gate.check = .ok ()) (hb : source.bytes = .ok b) (hp : Pool.decode? b = some p)
    (name : String) :
    (empty.loadFrom gate source).registry.get? name = p.descriptors.find? (·.name = name) := by
  have hd := ofBundle_of_decode? hp
  have hempty : ∀ d ∈ p.descriptors, empty.Compatible d := by
    intro d _ known hk
    contradiction
  rw [loadFrom_eq (.accepted hg hb hd hempty), get?_addAll]
  rfl

/-- A load that a registry accepts is accepted by an empty one, which then holds what its bundle lists. -/
theorem get?_alone {r : Registry} (h : (r.loadFrom gate source).result = .ok report) (hb : source.bytes = .ok b)
    (hp : Pool.decode? b = some p) (name : String) :
    (empty.loadFrom gate source).registry.get? name = p.descriptors.find? (·.name = name) :=
  get?_first ((loadFrom_loads r gate source).ok_iff.mp ⟨report, h⟩).1 hb hp name

/-- What a name stands for after a load is what it stood for before, or else what the load alone gives it. -/
theorem get?_loadFrom {r : Registry} (h : (r.loadFrom gate source).result = .ok report) (name : String) :
    (r.loadFrom gate source).registry.get? name =
      (r.get? name).or ((empty.loadFrom gate source).registry.get? name) := by
  obtain ⟨b, p, hb, hp, hr, -⟩ := loadFrom_ok h
  rw [hr, get?_addAll, get?_alone h hb hp]

/-- No request changes what a registered name stands for. -/
theorem serve_keeps {r : Registry} (h : r.get? name = some d) (q : Request) : (r.serve q).1.get? name = some d := by
  cases q with
  | load gate source => exact loadFrom_keeps h gate source
  | _ => exact h

theorem run_keeps {r : Registry} (h : r.get? name = some d) (requests : List Request) :
    (r.run requests).get? name = some d := by
  induction requests generalizing r with
  | nil => exact h
  | cons q qs ih => exact ih (serve_keeps h q)

theorem message?_ok {r : Registry} : r.message? name = .ok t ↔ r.get? name = some (.message t) := by
  unfold message?
  cases hg : r.get? name with
  | none => simp
  | some d => cases d <;> simp

theorem enum?_ok {r : Registry} : r.enum? name = .ok e ↔ r.get? name = some (.enum e) := by
  unfold enum?
  cases hg : r.get? name with
  | none => simp
  | some d => cases d <;> simp

/-- An extraction from a message that can be read is a walk from it. -/
theorem extract_of_read {r : Registry} (ht : r.message? type = .ok t) (hread : t.pool.read? t.definition b = some m)
    (warn : Bool) (path : Path) :
    r.extract warn b type path = (Walk.mk t.pool type path warn).go (.message t.definition m) path.steps := by
  rw [extract, ht]
  simp only [Except.bind, bind, hread]

theorem extract_of_corrupt {r : Registry} (ht : r.message? type = .ok t) (hread : t.pool.read? t.definition b = none)
    (warn : Bool) (path : Path) : r.extract warn b type path = .error (.corruptData type b) := by
  rw [extract, ht]
  simp only [Except.bind, bind, hread]

section SameName

variable {r s : Registry} (h : r.get? name = s.get? name)
include h

theorem message?_congr : r.message? name = s.message? name := by
  unfold message?
  rw [h]

theorem enum?_congr : r.enum? name = s.enum? name := by
  unfold enum?
  rw [h]

theorem listEnum_congr (filter : EnumFilter) : r.listEnum name filter = s.listEnum name filter := by
  unfold listEnum
  rw [enum?_congr h]

theorem extract_congr (warn : Bool) (b : Bytes) (path : Path) :
    r.extract warn b name path = s.extract warn b name path := by
  unfold extract
  rw [message?_congr h]

theorem extractText_congr (warn : Bool) (b : Bytes) (path : String) :
    r.extractText warn b name path = s.extractText warn b name path := by
  unfold extractText
  split
  · rfl
  · exact extract_congr h _ _ _

end SameName

/-- A registered name means the same for ever: no run of requests, loads that are accepted, rejected or repeated
among them, changes what is found, listed or extracted under it. -/
theorem registered_type_is_immutable (r : Registry) (h : (r.get? name).isSome) (later : List Request) :
    let s := r.run later
    s.get? name = r.get? name ∧ s.message? name = r.message? name ∧ s.enum? name = r.enum? name ∧
    (∀ filter, s.listEnum name filter = r.listEnum name filter) ∧
    (∀ warn b path, s.extract warn b name path = r.extract warn b name path) ∧
    ∀ warn b path, s.extractText warn b name path = r.extractText warn b name path := by
  intro s
  obtain ⟨d, hd⟩ := Option.isSome_iff_exists.mp h
  have hs : s.get? name = r.get? name := (run_keeps hd later).trans hd.symm
  exact ⟨hs, message?_congr hs, enum?_congr hs, listEnum_congr hs, extract_congr hs, extractText_congr hs⟩

theorem person_survives_conflict :
    let r := empty.run [.load .allow (.memory (FileDecl.writeBundle [Samples.addressBook]))]
    let s := r.run [.load .allow (.memory (FileDecl.writeBundle [Samples.conflictingPerson])), .size]
    (r.get? "Person").isSome ∧ s.get? "Person" = r.get? "Person" ∧
      ∀ warn b path, s.extract warn b "Person" path = r.extract warn b "Person" path := by
  intro r s
  have h : (r.get? "Person").isSome := by decide +kernel
  have hs := registered_type_is_immutable r h
    [.load .allow (.memory (FileDecl.writeBundle [Samples.conflictingPerson])), .size]
  exact ⟨h, hs.1, hs.2.2.2.2.1⟩

end Registry

end WireQuery
