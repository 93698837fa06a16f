import WireQuery.Extract.Walk
import WireQuery.Proofs.Message.Fits

namespace WireQuery

/-- Two pools mean the same by what fields of a kind refer to, if they do by the messages of the known names. -/
def Kind.Shared (p q : Pool) (known : String → Prop) : Kind → Prop
  | .scalar _ => True
  | .enum name => p.enum? name = q.enum? name
  | .message name | .map name => known name

def MessageDef.Shared (p q : Pool) (known : String → Prop) (ty : MessageDef) : Prop :=
  ∀ f ∈ ty.fields ++ ty.extensions, f.kind.Shared p q known

/-- Messages of the known names are the same in both pools, and refer only to one another. -/
structure Pool.Shares (p q : Pool) (known : String → Prop) : Prop where
  same : ∀ name, known name → p.message? name = q.message? name
  shared : ∀ name ty, known name → p.message? name = some ty → ty.Shared p q known

section Shared

variable {p q : Pool} {known : String → Prop} {ty : MessageDef} {f : FieldDef} {levels : Nat}
  {nested nested' entry entry' : Pool.Nested}

theorem MessageDef.Shared.numbered (h : ty.Shared p q known) (hn : ty.numbered? n = some f) :
    f.kind.Shared p q known := h f (MessageDef.numbered?_mem hn).1

theorem MessageDef.Shared.entryPart (h : ty.Shared p q known) : ty.entryPart.Shared p q known := by
  intro f hf
  rcases List.mem_append.mp hf with hf | hf
  · obtain ⟨g, hg, rfl⟩ := List.mem_map.mp hf
    exact h g (List.mem_append_left _ (List.mem_filter.mp hg).1)
  · contradiction

theorem framing_shared (hs : p.Shares q known) (state : Option MessageDef) (n : Nat)
    (h : ∀ ty, state = some ty → ty.Shared p q known) :
    p.framing.sized state n = q.framing.sized state n ∧ p.framing.inside state n = q.framing.inside state n ∧
      ∀ ty, p.framing.inside state n = some ty → ty.Shared p q known := by
  refine ⟨rfl, ?_⟩
  unfold Pool.framing
  dsimp only
  cases hf : state.bind (·.numbered? n) with
  | none => exact ⟨rfl, by simp⟩
  | some f =>
    obtain ⟨ty, rfl, hn⟩ := Option.bind_eq_some_iff.mp hf
    have hk := (h ty rfl).numbered hn
    cases hc : f.kind with
    | message name =>
      rw [hc] at hk
      simp only [hc]
      exact ⟨hs.same name hk, fun target hi => hs.shared name target hk hi⟩
    | _ => simp only [hc]; exact ⟨trivial, by simp⟩

theorem readFields_shared (hs : p.Shares q known) (h : ty.Shared p q known) (b : Bytes) :
    p.readFields ty b = q.readFields ty b :=
  Wire.readIn_congr (S := fun state => ∀ ty, state = some ty → ty.Shared p q known)
    (fun state n h => framing_shared hs state n h) (fun _ he => Option.some.inj he ▸ h) (by simp) b

/-- Mergings that do the same to messages of shared types. -/
def Pool.SameOn (p q : Pool) (known : String → Prop) (nested nested' : Pool.Nested) : Prop :=
  ∀ ty m fields, ty.Shared p q known → nested ty m fields = nested' ty m fields

theorem mergeBody_shared (hs : p.Shares q known) (hn : p.SameOn q known nested nested') (hk : known name)
    (f : FieldDef) (old : Message) (payload : Wire.Payload) :
    p.mergeBody nested f name old payload = q.mergeBody nested' f name old payload := by
  unfold Pool.mergeBody
  rw [← hs.same name hk]
  cases hi : p.message? name with
  | none => rfl
  | some ty =>
    have ht := hs.shared name ty hk hi
    simp only [Option.bind_eq_bind, Option.bind_some]
    split
    · exact hn ty old _ ht
    · rw [readFields_shared hs ht]
      cases q.readFields ty _ with
      | none => rfl
      | some fields => exact hn ty old fields ht
    · rfl

theorem readElement_shared (hs : p.Shares q known) (hn : p.SameOn q known nested nested')
    (hk : f.kind.Shared p q known) (payload : Wire.Payload) :
    p.readElement nested f payload = q.readElement nested' f payload := by
  unfold Pool.readElement
  cases hc : f.kind with
  | message name =>
    rw [hc] at hk
    dsimp only
    rw [mergeBody_shared hs hn hk]
  | _ => rfl

theorem mergeList_shared (hs : p.Shares q known) (hn : p.SameOn q known nested nested')
    (hk : f.kind.Shared p q known) (old : List Value) (payload : Wire.Payload) :
    p.mergeList nested f old payload = q.mergeList nested' f old payload := by
  unfold Pool.mergeList
  simp only [readElement_shared hs hn hk]

theorem mergeSingle_shared (hs : p.Shares q known) (hn : p.SameOn q known nested nested')
    (hk : f.kind.Shared p q known) (old : Value) (payload : Wire.Payload) :
    p.mergeSingle nested f old payload = q.mergeSingle nested' f old payload := by
  unfold Pool.mergeSingle
  cases hc : f.kind with
  | message name =>
    rw [hc] at hk
    cases old with
    | message m =>
      dsimp only
      rw [mergeBody_shared hs hn hk]
    | _ => rfl
  | _ => rfl

theorem mergeValue_shared (hs : p.Shares q known) (hn : p.SameOn q known nested nested')
    (he : p.SameOn q known entry entry') (hk : f.kind.Shared p q known) (old : Value) (payload : Wire.Payload) :
    p.mergeValue levels nested entry f old payload = q.mergeValue levels nested' entry' f old payload := by
  have hl := mergeList_shared hs hn hk
  have hm := mergeSingle_shared hs hn hk
  unfold Pool.mergeValue
  cases hc : f.kind with
  | map name =>
    rw [hc] at hk
    cases old with
    | map entries =>
      cases payload with
      | bytes b =>
        dsimp only
        rw [← hs.same name hk]
        cases hi : p.message? name with
        | none => rfl
        | some ty =>
          have ht := (hs.shared name ty hk hi).entryPart
          simp only [Option.bind_eq_bind, Option.bind_some]
          rw [readFields_shared hs ht]
          cases q.readFields ty.entryPart b with
          | none => rfl
          | some fields =>
            simp only [Option.bind_some]
            rw [he ty.entryPart _ _ ht]
      | _ => rfl
    | _ => rfl
  | _ => cases old <;> simp only [hl, hm]

theorem mergeField_shared (hs : p.Shares q known) (hn : p.SameOn q known nested nested')
    (he : p.SameOn q known entry entry') (ht : ty.Shared p q known) :
    p.mergeField levels nested entry ty = q.mergeField levels nested' entry' ty := by
  funext m x
  unfold Pool.mergeField
  cases hf : ty.numbered? x.1 with
  | none => rfl
  | some f =>
    dsimp only
    rw [mergeValue_shared hs hn he (ht.numbered hf)]

theorem mergeFields_shared (hs : p.Shares q known) (hn : p.SameOn q known nested nested') :
    p.SameOn q known (p.mergeFields levels nested) (q.mergeFields levels nested') := by
  have hparts : p.SameOn q known (p.mergeParts levels nested) (q.mergeParts levels nested') := by
    intro ty m fields ht
    rw [Pool.mergeParts, Pool.mergeParts, mergeField_shared hs hn (fun _ _ _ _ => rfl) ht]
  intro ty m fields ht
  rw [Pool.mergeFields, Pool.mergeFields, mergeField_shared hs hn hparts ht]

theorem merge_shared (hs : p.Shares q known) (levels : Nat) :
    p.SameOn q known (p.merge levels) (q.merge levels) := by
  induction levels with
  | zero => exact mergeFields_shared hs (fun _ _ _ _ => rfl)
  | succ levels ih => exact mergeFields_shared hs ih

/-- Bytes are read the same in both pools by a type that they share. -/
theorem read?_shared (hs : p.Shares q known) (ht : ty.Shared p q known) (b : Bytes) : p.read? ty b = q.read? ty b := by
  have hm : p.merge Pool.maxLevels ty {} = q.merge Pool.maxLevels ty {} :=
    funext fun fields => merge_shared hs Pool.maxLevels ty {} fields ht
  rw [Pool.read?, Pool.read?, readFields_shared hs ht, hm]

namespace Node

/-- Nodes whose types are shared by two pools. -/
def Shared (p q : Pool) (known : String → Prop) : Node → Prop
  | .message ty _ => ty.Shared p q known
  | .repeated f _ => f.kind.Shared p q known
  | _ => True

theorem ofValue_shared (hs : p.Shares q known) {kind : Kind} (hk : kind.Shared p q known) (v : Value) :
    ofValue p kind v = ofValue q kind v ∧ (ofValue p kind v).Shared p q known := by
  cases kind with
  | scalar k => cases v <;> exact ⟨rfl, trivial⟩
  | enum name =>
    have he : p.enum? name = q.enum? name := hk
    cases v with
    | scalar s =>
      cases s with
      | enum n =>
        refine ⟨by simp only [ofValue, he], ?_⟩
        simp only [ofValue]
        cases p.enum? name <;> exact trivial
      | _ => exact ⟨rfl, trivial⟩
    | _ => exact ⟨rfl, trivial⟩
  | message name =>
    cases v with
    | message m =>
      refine ⟨by simp only [ofValue, hs.same name hk], ?_⟩
      simp only [ofValue]
      cases hm : p.message? name with
      | none => exact trivial
      | some ty => exact hs.shared name ty hk hm
    | _ => exact ⟨rfl, trivial⟩
  | map name => cases v <;> exact ⟨rfl, trivial⟩

/-- A field leads to its list, to its value, or to nothing. -/
theorem field_cases (h : field p ty m name = .ok node) :
    ∃ f ∈ ty.fields, (∃ vs, node = .repeated f vs) ∨ node = ofValue p f.kind (m.get f) ∨ node = .absent := by
  unfold field at h
  cases hf : ty.field? name with
  | none =>
    rw [hf] at h
    contradiction
  | some f =>
    rw [hf] at h
    refine ⟨f, List.mem_of_find?_eq_some hf, ?_⟩
    dsimp only at h
    split at h
    · contradiction
    · split at h
      · split at h
        · exact .inl ⟨_, (Except.ok.inj h).symm⟩
        · contradiction
      · split at h
        · split at h
          · exact .inr (.inl (Except.ok.inj h).symm)
          · exact .inr (.inr (Except.ok.inj h).symm)
        · exact .inr (.inl (Except.ok.inj h).symm)

theorem field_shared (hs : p.Shares q known) (ht : ty.Shared p q known) (m : Message) (name : String) :
    field p ty m name = field q ty m name ∧ ∀ node, field p ty m name = .ok node → node.Shared p q known := by
  refine ⟨?_, fun node hnode => ?_⟩
  · unfold field
    cases hf : ty.field? name with
    | none => rfl
    | some f =>
      have hk := ht f (List.mem_append_left _ (List.mem_of_find?_eq_some hf))
      have he := (ofValue_shared hs hk (m.get f)).1
      dsimp only
      cases hc : f.kind with
      | map entry => rfl
      | _ =>
        rw [hc] at he
        simp only [he]
  · obtain ⟨f, hf, ⟨vs, rfl⟩ | rfl | rfl⟩ := field_cases hnode
    · exact ht f (List.mem_append_left _ hf)
    · exact (ofValue_shared hs (ht f (List.mem_append_left _ hf)) (m.get f)).2
    · exact trivial

theorem index_shared (hs : p.Shares q known) (hk : f.kind.Shared p q known) (items : List Value) (i : Int64) :
    index p f items i = index q f items i ∧ ∀ node, index p f items i = .ok node → node.Shared p q known := by
  unfold index
  cases (position? i items.length).bind (items[·]?) with
  | none => exact ⟨rfl, by simp⟩
  | some v =>
    obtain ⟨he, hv⟩ := ofValue_shared hs hk v
    exact ⟨congrArg _ he, fun node hnode => Except.ok.inj hnode ▸ hv⟩

end Node

/-- From a node of shared types the same steps lead to the same extraction or error. -/
theorem Walk.go_shared (hs : p.Shares q known) (h : node.Shared p q known) (root : String) (path : Path) (warn : Bool)
    (steps : List Step) :
    (Walk.mk p root path warn).go node steps = (Walk.mk q root path warn).go node steps := by
  induction steps generalizing node with
  | nil => cases node <;> rfl
  | cons step steps ih =>
    cases node with
    | message ty m =>
      cases step with
      | field name =>
        obtain ⟨he, hn⟩ := Node.field_shared hs h m name
        simp only [Walk.go, ← he]
        cases hf : Node.field p ty m name with
        | error e => rfl
        | ok next => exact ih (hn next hf)
      | index i => rfl
    | repeated f items =>
      cases step with
      | field name => rfl
      | index i =>
        obtain ⟨he, hn⟩ := Node.index_shared hs h items i
        simp only [Walk.go, ← he]
        cases hf : Node.index p f items i with
        | error e => rfl
        | ok next => exact ih (hn next hf)
    | enum n e =>
      cases step with
      | field name => cases steps <;> rfl
      | index i => rfl
    | single v => cases step <;> rfl
    | absent => cases step <;> rfl

end Shared

end WireQuery
