import WireQuery.Proofs.Extract.Settled
import WireQuery.Proofs.Registry.Closed

/-!
A path is typed by the schema alone. The same steps are walked over types in place of nodes, and an extraction gives a
value of the kind that comes out, or the error that comes out, or else one of the few answers that hang on the data.
-/

namespace WireQuery

/-- What values for a database have in common besides null. -/
inductive DatumKind where
  | integer
  | real
  | text
  | blob
  deriving DecidableEq, Repr

def Datum.kind? : Datum → Option DatumKind
  | null => none
  | integer _ => some .integer
  | real _ => some .real
  | text _ => some .text
  | blob _ => some .blob

def ScalarKind.datumKind : ScalarKind → DatumKind
  | double | float => .real
  | string => .text
  | bytes => .blob
  | _ => .integer

theorem Scalar.kind?_datum (h : Scalar.kind? s = some k) : s.datum.kind? = some k.datumKind := by
  cases s <;> cases h <;> rfl

/-- What a path has reached, as far as the schema tells. -/
inductive NodeType where
  | message (type : MessageDef)
  | repeated (field : FieldDef)
  | enum (type : EnumDef)
  | single (kind : DatumKind)

namespace NodeType

/-- The type of one value of a field. -/
def ofKind (p : Pool) : Kind → NodeType
  | .scalar kind => .single kind.datumKind
  | .enum name => ((p.enum? name).map .enum).getD (.single .integer)
  | .message name | .map name => ((p.message? name).map .message).getD (.single .blob)

def field (p : Pool) (type : MessageDef) (name : String) : Except Error NodeType :=
  match type.field? name with
  | none => .error (.unknownField name type.name)
  | some f =>
    if f.kind.isMap then .error (.invalidPath (.intoMap name))
    else .ok (if f.isRepeated then .repeated f else ofKind p f.kind)

/-- The kind of the value at the end of a path. -/
def finish : NodeType → Except Error DatumKind
  | .message _ => .ok .blob
  | .repeated f => .error (.invalidPath (.indexExpected f.name))
  | .enum _ => .ok .integer
  | .single kind => .ok kind

def accessor (name : String) : Except Error DatumKind :=
  match EnumAccessor.ofField? name with
  | some .number => .ok .integer
  | some .name => .ok .text
  | none => .error (.invalidPath .pastScalar)

/-- No step asks how long a list is or whether a message is there. -/
def go (p : Pool) (type : NodeType) (steps : List Step) : Except Error DatumKind :=
  match type, steps with
  | type, [] => type.finish
  | .message type, .field name :: steps => do
    let type ← field p type name
    go p type steps
  | .message type, .index _ :: _ => .error (.invalidPath (.indexOnMessage type.name))
  | .repeated f, .index _ :: steps => go p (ofKind p f.kind) steps
  | .repeated f, .field _ :: _ => .error (.invalidPath (.indexExpected f.name))
  | .enum _, [.field name] => accessor name
  | .enum _, _ :: _ => .error (.invalidPath .pastScalar)
  | .single _, _ :: _ => .error (.invalidPath .pastScalar)
termination_by structural steps

theorem go_nil (p : Pool) (type : NodeType) : type.go p [] = type.finish := by
  cases type <;> rfl

end NodeType

/-- The kind of the values at a path from a message, or why there are none. -/
def MessageType.pathKind (t : MessageType) (path : Path) : Except Error DatumKind :=
  (NodeType.message t.definition).go t.pool path.steps

/-- What is not there has every type. -/
inductive Node.HasType (p : Pool) : Node → NodeType → Prop
  | message (ht : ty ∈ p.messages) (hm : p.Fits Pool.maxLevels ty m) : HasType p (.message ty m) (.message ty)
  | repeated (hv : ∀ v ∈ vs, v.FitsOne p (p.Fits Pool.maxLevels) f) : HasType p (.repeated f vs) (.repeated f)
  | enum : HasType p (.enum n ty) (.enum ty)
  | scalar (hk : s.datum.kind? = some kind) : HasType p (.single (.scalar s)) (.single kind)
  | absent : HasType p .absent type

namespace Node

variable {p : Pool}

theorem ofValue_hasType (hv : v.FitsOne p (p.Fits Pool.maxLevels) f) :
    HasType p (ofValue p f.kind v) (.ofKind p f.kind) := by
  cases v with
  | scalar s =>
    have hs : f.kind.readScalar? s.payload = some s := hv
    cases hk : f.kind with
    | scalar k =>
      rw [hk] at hs
      exact .scalar (Scalar.kind?_datum (ScalarKind.kind?_of_read? hs))
    | enum name =>
      rw [hk] at hs
      obtain ⟨n, rfl⟩ := readEnum?_inv hs
      unfold ofValue NodeType.ofKind
      cases he : p.enum? name with
      | none =>
        simp only [he]
        exact .scalar rfl
      | some e =>
        simp only [he]
        exact .enum
    | message name => simp [hk, Kind.readScalar?] at hs
    | map name => simp [hk, Kind.readScalar?] at hs
  | message m =>
    obtain ⟨name, ty, hk, hi, hm⟩ := hv
    simp only [ofValue, NodeType.ofKind, hk, hi, Option.map_some, Option.getD_some]
    exact .message (List.mem_of_find?_eq_some hi) hm
  | list vs => exact False.elim hv
  | map entries => exact False.elim hv

/-- A field step fails on a message exactly if it fails on the type, and in the same way. -/
theorem field_hasType (hp : p.Sound) (ht : ty ∈ p.messages) (hm : p.Fits Pool.maxLevels ty m) (name : String) :
    Agree (HasType p) (Node.field p ty m name) (NodeType.field p ty name) := by
  have hstep := field_step hp ht hm name
  generalize Node.field p ty m name = x at hstep
  unfold NodeType.field
  cases hstep with
  | unknown hf =>
    rw [hf]
    exact rfl
  | map hf hk =>
    simp only [hf, hk]
    exact rfl
  | list hf hk hr hg hv =>
    simp only [hf, hk, hr]
    exact .repeated hv
  | @message f target hf hk hr hv =>
    have hof := ofValue_hasType hv
    have hmap : f.kind.isMap = false := by simp [hk, Kind.isMap]
    simp only [hf, hmap, hr]
    cases m.has f with
    | true => exact hof
    | false => exact HasType.absent
  | single hf hk hr hv =>
    have hof := ofValue_hasType hv
    simp only [hf, Kind.isMap_of_isMessage hk, hr]
    exact hof

theorem index_hasType (hv : ∀ v ∈ vs, v.FitsOne p (p.Fits Pool.maxLevels) f) (i : Int64) :
    Node.index p f vs i = .error (.indexOutOfRange i f.name vs.length) ∨
      ∃ node, Node.index p f vs i = .ok node ∧ HasType p node (.ofKind p f.kind) := by
  unfold Node.index
  split
  · next v hi =>
    obtain ⟨k, -, hk⟩ := Option.bind_eq_some_iff.mp hi
    exact .inr ⟨_, rfl, ofValue_hasType (hv v (List.mem_of_getElem? hk))⟩
  · exact .inl rfl

end Node

/-- What an extraction can give where the schema says what the path is. -/
inductive Conforms : Except Error DatumKind → Except Error Extraction → Prop
  | value (hk : x.value.kind? = some kind) : Conforms (.ok kind) (.ok x)
  | fails : Conforms (.error e) (.error e)
  | null : Conforms expected (.ok ⟨.null, []⟩)
  | outOfRange : Conforms expected (.error (.indexOutOfRange i field length))
  /-- Only a name can be missing. -/
  | undeclared : Conforms (.ok .text) (.error (.unknownEnumValue n enum))

theorem Conforms.bind {next : NodeType → Except Error DatumKind} {walk : Node → Except Error Extraction}
    (h : Agree (Node.HasType p) node type)
    (hnext : ∀ a t, Node.HasType p a t → Conforms (next t) (walk a)) : Conforms (type >>= next) (node >>= walk) := by
  cases node with
  | error e =>
    cases type with
    | error d =>
      obtain rfl : e = d := h
      exact .fails
    | ok t => exact False.elim h
  | ok a =>
    cases type with
    | error d => exact False.elim h
    | ok t => exact hnext a t h

namespace Conforms

/-- A value is null or of the kind of its path. -/
theorem kind (h : Conforms expected (.ok x)) (hn : x.value ≠ .null) : expected.map some = .ok x.value.kind? := by
  cases h with
  | value hk => exact congrArg Except.ok hk.symm
  | null => exact absurd rfl hn

/-- An error that tells of the path is that of the schema. -/
theorem eq_error (h : Conforms expected (.error e)) (hk : e.kind = .unknownField ∨ e.kind = .invalidPath) :
    expected = .error e := by
  cases h with
  | fails => rfl
  | _ => rcases hk with hk | hk <;> contradiction

theorem of_error (h : Conforms (.error e) x) :
    x = .error e ∨ x = .ok ⟨.null, []⟩ ∨ ∃ i field length, x = .error (.indexOutOfRange i field length) := by
  cases h with
  | fails => exact .inl rfl
  | null => exact .inr (.inl rfl)
  | outOfRange => exact .inr (.inr ⟨_, _, _, rfl⟩)

end Conforms

namespace Walk

variable {w : Walk}

theorem finish_conforms (h : Node.HasType p node type) : Conforms type.finish (w.finish node) := by
  cases h with
  | message ht hm => exact .value rfl
  | repeated hv => exact .fails
  | enum => exact .value rfl
  | scalar hk => exact .value hk
  | absent => exact .null

theorem accessor_conforms (n : Int32) (e : EnumDef) (name : String) :
    Conforms (NodeType.accessor name) (accessor n e name) := by
  unfold NodeType.accessor accessor
  cases EnumAccessor.ofField? name with
  | none => exact .fails
  | some a =>
    cases a with
    | number => exact .value rfl
    | name =>
      cases e.nameFor? n with
      | none => exact .undeclared
      | some s => exact .value rfl

/-- From a node of a type the same steps lead to what they lead to from the type. -/
theorem go_conforms (hp : w.pool.Sound) (h : Node.HasType w.pool node type) (steps : List Step) :
    Conforms (type.go w.pool steps) (w.go node steps) := by
  induction steps generalizing node type with
  | nil =>
    rw [go_nil, NodeType.go_nil]
    exact finish_conforms h
  | cons step steps ih =>
    cases h with
    | message ht hm =>
      cases step with
      | field name => exact Conforms.bind (Node.field_hasType hp ht hm name) (fun _ _ h => ih h)
      | index i => exact .fails
    | @repeated vs f hv =>
      cases step with
      | field name => exact .fails
      | index i =>
        rw [go, NodeType.go]
        obtain hi | ⟨next, hi, hnext⟩ := Node.index_hasType hv i
        · rw [hi]
          exact .outOfRange
        · rw [hi]
          exact ih hnext
    | enum =>
      cases step with
      | field name =>
        cases steps with
        | nil => exact accessor_conforms _ _ name
        | cons next steps => exact .fails
      | index i => exact .fails
    | scalar hk => cases step <;> exact .fails
    | absent => cases step <;> exact .null

end Walk

namespace Registry

theorem extract_conforms (h : (empty.run history).message? type = .ok t) (warn : Bool) (b : Bytes) (path : Path) :
    (empty.run history).extract warn b type path = .error (.corruptData type b) ∨
      Conforms (t.pathKind path) ((empty.run history).extract warn b type path) := by
  obtain ⟨_, _, _, -, -, -, hp, hmem, -⟩ := origin_of_message? h
  unfold extract
  rw [h]
  simp only [Except.bind, bind]
  cases hread : t.pool.read? t.definition b with
  | none => exact .inl rfl
  | some m =>
    have hfits := Pool.read?_fits hp.sound (hp.sound.messages _ hmem) hread
    exact .inr (Walk.go_conforms (w := ⟨t.pool, type, path, warn⟩) hp.sound (.message hmem hfits) path.steps)

/-- What is extracted from a type that is not registered does not depend on the bytes. -/
theorem extract_unknown {r : Registry} (h : r.message? type = .error e) (warn : Bool) (b : Bytes) (path : Path) :
    r.extract warn b type path = .error e := by
  unfold extract
  rw [h]
  rfl

/-- A path from a type is of one kind, or wrong in one way. Two extractions that give values give values of the same
kind. If one fails because of the path, each other one fails in the same way, unless it stops before at a message or an
element that is not there, or cannot read its bytes. -/
theorem paths_typed_by_schema (history : List Request) (type : String) (path : Path) (b₁ b₂ : Bytes)
    (warn₁ warn₂ : Bool) :
    let x := (empty.run history).extract warn₁ b₁ type path
    let y := (empty.run history).extract warn₂ b₂ type path
    (∀ u v, x = .ok u → y = .ok v → u.value ≠ .null → v.value ≠ .null → u.value.kind? = v.value.kind?) ∧
    ∀ e, x = .error e → e.kind = .unknownField ∨ e.kind = .invalidPath →
      y = .error e ∨ y = .ok ⟨.null, []⟩ ∨ (∃ i field length, y = .error (.indexOutOfRange i field length)) ∨
        y = .error (.corruptData type b₂) := by
  intro x y
  cases ht : (empty.run history).message? type with
  | error d =>
    have hx : x = .error d := extract_unknown ht warn₁ b₁ path
    have hy : y = .error d := extract_unknown ht warn₂ b₂ path
    constructor
    · intro u v hu
      rw [hx] at hu
      contradiction
    · intro e he _
      exact .inl (hy.trans (hx.symm.trans he))
  | ok t =>
    have hx : x = .error (.corruptData type b₁) ∨ Conforms (t.pathKind path) x := extract_conforms ht warn₁ b₁ path
    have hy : y = .error (.corruptData type b₂) ∨ Conforms (t.pathKind path) y := extract_conforms ht warn₂ b₂ path
    constructor
    · intro u v hu hv hun hvn
      rw [hu] at hx
      rw [hv] at hy
      obtain hx | hx := hx
      · contradiction
      obtain hy | hy := hy
      · contradiction
      exact Except.ok.inj ((hx.kind hun).symm.trans (hy.kind hvn))
    · intro e he hk
      rw [he] at hx
      obtain hx | hx := hx
      · rw [Except.error.inj hx] at hk
        rcases hk with hk | hk <;> contradiction
      · obtain hy | hy := hy
        · exact .inr (.inr (.inr hy))
        · rw [hx.eq_error hk] at hy
          obtain hy | hy | hy := hy.of_error
          · exact .inl hy
          · exact .inr (.inl hy)
          · exact .inr (.inr (.inl hy))

theorem next_paths_typed :
    (∃ u v, (empty.run [chainLoad]).extract true [10, 2, 16, 7] "N" ⟨[.field "next", .field "x"]⟩ = .ok u ∧
      (empty.run [chainLoad]).extract true [10, 2, 16, 8] "N" ⟨[.field "next", .field "x"]⟩ = .ok v ∧
      u.value.kind? = v.value.kind?) ∧
    (empty.run [chainLoad]).extract true [10, 2, 16, 7] "N" ⟨[.field "next", .field "y"]⟩ =
      .error (.unknownField "y" "N") ∧
    ∀ u, (empty.run [chainLoad]).extract true [16, 7] "N" ⟨[.field "next", .field "y"]⟩ = .ok u → u.value = .null := by
  have hseven : (empty.run [chainLoad]).extract true [10, 2, 16, 7] "N" ⟨[.field "next", .field "x"]⟩ =
      .ok ⟨.integer 7, []⟩ := by cbv
  have height : (empty.run [chainLoad]).extract true [10, 2, 16, 8] "N" ⟨[.field "next", .field "x"]⟩ =
      .ok ⟨.integer 8, []⟩ := by cbv
  have hwrong : (empty.run [chainLoad]).extract true [10, 2, 16, 7] "N" ⟨[.field "next", .field "y"]⟩ =
      .error (.unknownField "y" "N") := by cbv
  obtain ⟨hkind, -⟩ := paths_typed_by_schema [chainLoad] "N" ⟨[.field "next", .field "x"]⟩ [10, 2, 16, 7] [10, 2, 16, 8]
    true true
  obtain ⟨-, hfails⟩ := paths_typed_by_schema [chainLoad] "N" ⟨[.field "next", .field "y"]⟩ [10, 2, 16, 7] [16, 7]
    true true
  refine ⟨⟨_, _, hseven, height, hkind _ _ hseven height Datum.noConfusion Datum.noConfusion⟩, hwrong, ?_⟩
  intro u hu
  obtain h | h | ⟨_, _, _, h⟩ | h := hfails _ hwrong (.inl rfl)
  · rw [hu] at h
    contradiction
  · rw [hu] at h
    rw [Except.ok.inj h]
  · rw [hu] at h
    contradiction
  · rw [hu] at h
    contradiction

end Registry

end WireQuery
