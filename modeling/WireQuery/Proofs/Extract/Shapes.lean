import WireQuery.Proofs.Extract.Leaves

namespace WireQuery

/-- The error is about a value of another shape than its field declares. -/
def Error.IsShape : Error → Prop
  | .invalidPath (.noList _) | .invalidPath (.noSingleValue _) => True
  | _ => False

/-- The elements of a list, or else the value itself. A map has entries instead. -/
def Value.singles : Value → List Value
  | .list vs => vs
  | .map _ => []
  | v => [v]

structure Value.Shaped (f : FieldDef) (v : Value) : Prop where
  list : (∃ vs, v = .list vs) ↔ f.isRepeated = true ∧ f.kind.isMap = false
  map : (∃ entries, v = .map entries) ↔ f.kind.isMap = true
  message : ∀ w ∈ v.singles, (∃ m, w = .message m) ↔ ∃ name, f.kind = .message name
  enum : ∀ w ∈ v.singles, (∃ n, w = .scalar (.enum n)) ↔ ∃ name, f.kind = .enum name
  scalar : ∀ w ∈ v.singles, ∀ kind, (∃ s, w = .scalar s ∧ s.kind? = some kind) ↔ f.kind = .scalar kind

/-- The messages inside a message, with their types: in fields, in lists, and as entries of maps. -/
inductive Message.Within (p : Pool) (ty : MessageDef) (m : Message) : MessageDef → Message → Prop
  | here : Within p ty m ty m
  | field (h : Within p ty m outer o) (hn : outer.numbered? n = some f) (hk : f.kind = .message name)
    (ht : p.message? name = some part) (hi : .message i ∈ (o.get f).singles) : Within p ty m part i
  | entry (h : Within p ty m outer o) (hn : outer.numbered? n = some f) (hk : f.kind = .map name)
    (ht : p.message? name = some part) (he : o.get f = .map entries) (hi : i ∈ entries) :
    Within p ty m part.entryPart i

namespace Value

variable {p : Pool} {nested entry : Fitting} {f : FieldDef} {v : Value}

theorem Shows.message_iff (h : v.Shows p kind node) : (∃ m, v = .message m) ↔ ∃ name, kind = .message name := by
  cases h <;> simp

theorem Shows.enum_iff (h : v.Shows p kind node) : (∃ n, v = .scalar (.enum n)) ↔ ∃ name, kind = .enum name := by
  cases h with
  | message ht => simp
  | enum he => simp
  | scalar hs =>
    constructor
    · rintro ⟨n, hn⟩
      cases hn
      contradiction
    · rintro ⟨name, ⟨⟩⟩

theorem Shows.scalar_iff (h : v.Shows p kind node) (k : ScalarKind) :
    (∃ s, v = .scalar s ∧ s.kind? = some k) ↔ kind = .scalar k := by
  cases h with
  | message ht => simp
  | enum he => simp [Scalar.kind?]
  | scalar hs => simp [hs]

theorem FitsOne.not_list (h : v.FitsOne p nested f) : ∀ vs, v ≠ .list vs := by
  rintro vs rfl
  exact h

theorem FitsOne.not_map (h : v.FitsOne p nested f) : ∀ entries, v ≠ .map entries := by
  rintro entries rfl
  exact h

theorem FitsOne.shaped (h : v.FitsOne p nested f) (hr : f.isRepeated = false) (hk : f.kind.Known p) : v.Shaped f := by
  have hs := h.shows hk
  have hsingles : v.singles = [v] := by
    cases v with
    | list vs => exact absurd rfl (h.not_list vs)
    | map entries => exact absurd rfl (h.not_map entries)
    | _ => rfl
  constructor
  · simp [hr, h.not_list]
  · simp [h.isMap, h.not_map]
  all_goals
    intro w hw
    rw [hsingles, List.mem_singleton] at hw
    subst hw
  · exact hs.message_iff
  · exact hs.enum_iff
  · exact hs.scalar_iff

theorem Fits.shaped (h : v.Fits p nested entry f) (hk : f.kind.Known p) : v.Shaped f := by
  cases v with
  | scalar s => exact h.2.shaped h.1 hk
  | message m => exact h.2.shaped h.1 hk
  | list vs =>
    obtain ⟨hr, hmap, hone⟩ := h
    have hs (w : Value) (hw : w ∈ vs) := (hone w hw).shows hk
    exact ⟨by simp [hr, hmap], by simp [hmap], fun w hw => (hs w hw).message_iff, fun w hw => (hs w hw).enum_iff,
      fun w hw => (hs w hw).scalar_iff⟩
  | map entries =>
    obtain ⟨name, ty, hc, -⟩ := h
    have hmap : f.kind.isMap = true := by
      rw [hc]
      rfl
    exact ⟨by simp [hmap], by simp [hmap], List.forall_mem_nil _, List.forall_mem_nil _, List.forall_mem_nil _⟩

/-- One of the values in a value that fits fits alone. -/
theorem Fits.one (h : v.Fits p nested entry f) (hw : w ∈ v.singles) : w.FitsOne p nested f := by
  cases v with
  | scalar s =>
    rw [List.mem_singleton.mp hw]
    exact h.2
  | message m =>
    rw [List.mem_singleton.mp hw]
    exact h.2
  | list vs => exact h.2.2 w hw
  | map entries => contradiction

end Value

namespace Message

variable {p : Pool} {ty part : MessageDef} {m i : Message}

/-- What a message fits, the messages inside it fit too, with as many levels. -/
theorem Within.fits (h : Within p ty m part i) (hp : p.Sound) (ht : ty.Sound p) (hm : p.Fits Pool.maxLevels ty m) :
    part.Sound p ∧ p.FitsIn Pool.maxLevels (p.Fits Pool.maxLevels) part i := by
  induction h with
  | here => exact ⟨ht, Pool.fits_nested hm⟩
  | field h hn hk hi hmem ih =>
    obtain ⟨hs, hf⟩ := ih
    obtain ⟨name, ty, hk', hi', hm'⟩ := (hf.get hs (Pool.empty_fits _) hn).one hmem
    obtain rfl := Kind.message.inj (hk.symm.trans hk')
    obtain rfl := Option.some.inj (hi.symm.trans hi')
    exact ⟨Pool.sound_of_message? hp hi, Pool.fits_nested hm'⟩
  | entry h hn hk hi he hmem ih =>
    obtain ⟨hs, hf⟩ := ih
    have hv := hf.get hs (Pool.empty_fits _) hn
    rw [he] at hv
    obtain ⟨name, ty, hk', hi', hes⟩ := hv
    obtain rfl := Kind.map.inj (hk.symm.trans hk')
    obtain rfl := Option.some.inj (hi.symm.trans hi')
    refine ⟨MessageDef.entryPart_linked (Pool.sound_of_message? hp hi), ?_⟩
    exact (hes _ hmem).1.imp (Nat.le_refl _) (fun _ _ h => h) (fun _ _ h => False.elim h)

theorem Within.shaped (h : Within p ty m part i) (hp : p.Sound) (ht : ty.Sound p) (hm : p.Fits Pool.maxLevels ty m)
    (hn : part.numbered? n = some f) : (i.get f).Shaped f := by
  obtain ⟨hs, hf⟩ := h.fits hp ht hm
  exact (hf.get hs (Pool.empty_fits _) hn).shaped (MessageDef.linked_of_numbered? hs hn).known

end Message

namespace NodeType

theorem field_not_shape (h : field p ty name = .error e) : ¬e.IsShape := by
  unfold field at h
  split at h
  · cases h
    exact id
  · split at h
    · cases h
      exact id
    · contradiction

theorem accessor_not_shape (h : accessor name = .error e) : ¬e.IsShape := by
  unfold accessor at h
  split at h
  · contradiction
  · contradiction
  · cases h
    exact id

theorem go_not_shape (h : go p type steps = .error e) : ¬e.IsShape := by
  induction steps generalizing type with
  | nil =>
    rw [go_nil] at h
    cases type <;> cases h
    exact id
  | cons step steps ih =>
    cases type with
    | message ty =>
      cases step with
      | field name =>
        rw [go] at h
        cases hx : field p ty name with
        | error d =>
          rw [hx] at h
          cases h
          exact field_not_shape hx
        | ok next =>
          rw [hx] at h
          exact ih h
      | index i =>
        cases h
        exact id
    | repeated f =>
      cases step with
      | field name =>
        cases h
        exact id
      | index i => exact ih h
    | enum d =>
      cases step with
      | field name =>
        cases steps with
        | nil => exact accessor_not_shape h
        | cons next steps =>
          cases h
          exact id
      | index i =>
        cases h
        exact id
    | single kind =>
      cases step <;> cases h <;> exact id

end NodeType

theorem Conforms.not_shape (h : Conforms expected (.error e)) (he : ∀ d, expected = .error d → ¬d.IsShape) :
    ¬e.IsShape := by
  cases h with
  | fails => exact he e rfl
  | outOfRange => exact id
  | undeclared => exact id

namespace Registry

theorem extract_not_shape (h : (empty.run history).extract warn b type path = .error e) : ¬e.IsShape := by
  cases ht : (empty.run history).message? type with
  | error d =>
    rw [extract_unknown ht] at h
    cases h
    unfold message? at ht
    split at ht
    · contradiction
    · cases ht
      exact id
  | ok t =>
    obtain hc | hc := extract_conforms ht warn b path
    · rw [h] at hc
      cases hc
      exact id
    · rw [h] at hc
      exact hc.not_shape (fun _ hd => NodeType.go_not_shape hd)

theorem extractText_not_shape (h : (empty.run history).extractText warn b type text = .error e) : ¬e.IsShape := by
  unfold extractText at h
  split at h
  · cases h
    exact id
  · exact extract_not_shape h

theorem node_of_enum {p : Pool} {v : Value} (h : v.Shows p kind node) (hk : kind = .enum name) :
    ∃ n e, node = .enum n e ∧ e.name = name := by
  cases h with
  | enum he =>
    cases hk
    exact ⟨_, _, rfl, (Pool.enum?_mem he).2⟩
  | _ => contradiction

theorem node_of_message {p : Pool} {v : Value} (h : v.Shows p kind node) (hk : kind = .message name) :
    ∃ ty m, node = .message ty m ∧ ty.name = name := by
  cases h with
  | message ht =>
    cases hk
    exact ⟨_, _, rfl, (Pool.message?_mem ht).2⟩
  | _ => contradiction

/-- The value of a field that is not repeated is reached as what it shows, unless it is a message that is not set. -/
theorem node?_field (h : (empty.run history).node? b type path = some (.message ty m)) (hf : ty.field? name = some f)
    (hk : f.kind.isMap = false) (hr : f.isRepeated = false) (hl : ¬m.Lacks f) :
    ∃ p node, (m.get f).Shows p f.kind node ∧
      (empty.run history).node? b type (path.field name) = some node := by
  have hreach := reaches_iff.mpr h
  obtain ⟨t, ht, hp, hfits, -⟩ := hreach.extract
  cases hfits with
  | message hmem hm =>
    have hty := hp.messages ty hmem
    have hmf : f ∈ ty.fields := List.mem_of_find?_eq_some hf
    have hone := one_of_fits hk hr
      ((Pool.fits_nested hm).get hty (Pool.empty_fits _) (MessageDef.numbered?_of_mem hty hmf))
    have hs := hone.shows (hty.fields f hmf).2.known
    exact ⟨t.pool, _, hs, reaches_iff.mp (hreach.snoc ht (.value hf hr hl hs))⟩

/-- An element of a list is reached as what it shows. -/
theorem node?_index (h : (empty.run history).node? b type path = some (.repeated f vs))
    (hi : (empty.run history).node? b type (path.index i) = some node) :
    ∃ p v, v ∈ vs ∧ v.Shows p f.kind node := by
  obtain ⟨t, m, -, hlist, hnode⟩ := (reaches_iff.mpr h).same_start (reaches_iff.mpr hi)
  obtain ⟨mid, hmid, hlast⟩ := Node.reaches_append.mp hnode
  obtain rfl := hlist.unique hmid
  cases hlast with
  | step hl hr =>
    cases hr
    cases hl with
    | element hv hpos hs => exact ⟨t.pool, _, List.mem_of_getElem? hv, hs⟩

/-- No extraction fails because a value has another shape than its field declares. A field of an enum kind is walked as an
enum value and a field of a message kind that is set as a message, and so are the elements of their lists. For what was
read, and what stands for what is not set, has the shape that its field declares, at any depth. -/
theorem values_have_declared_shapes (history : List Request) (warn : Bool) (b : Bytes) (type : String) (path : Path) :
    let r := empty.run history
    (∀ e, r.extract warn b type path = .error e → ¬e.IsShape) ∧
    (∀ text e, r.extractText warn b type text = .error e → ¬e.IsShape) ∧
    (∀ ty m name f, r.node? b type path = some (.message ty m) → ty.field? name = some f → f.isRepeated = false →
      (∀ enum, f.kind = .enum enum →
        ∃ n e, r.node? b type (path.field name) = some (.enum n e) ∧ e.name = enum) ∧
      ∀ target, f.kind = .message target → m.has f = true →
        ∃ part i, r.node? b type (path.field name) = some (.message part i) ∧ part.name = target) ∧
    (∀ f vs i node, r.node? b type path = some (.repeated f vs) → r.node? b type (path.index i) = some node →
      (∀ enum, f.kind = .enum enum → ∃ n e, node = .enum n e ∧ e.name = enum) ∧
      ∀ target, f.kind = .message target → ∃ part i, node = .message part i ∧ part.name = target) ∧
    ∀ t m, r.message? type = .ok t → t.pool.read? t.definition b = some m →
      ∀ part i, Message.Within t.pool t.definition m part i →
        ∀ n f, part.numbered? n = some f → (i.get f).Shaped f := by
  intro r
  refine ⟨fun e => extract_not_shape, fun text e => extractText_not_shape, ?_, ?_, ?_⟩
  · intro ty m name f h hf hr
    constructor
    · intro enum hk
      have hl : ¬m.Lacks f := by
        rintro ⟨⟨target, hk'⟩, -, -⟩
        cases hk.symm.trans hk'
      obtain ⟨p, node, hs, hn⟩ := node?_field h hf (by simp [hk, Kind.isMap]) hr hl
      obtain ⟨n, e, rfl, he⟩ := node_of_enum hs hk
      exact ⟨n, e, hn, he⟩
    · intro target hk hset
      have hl : ¬m.Lacks f := fun hl => Bool.false_ne_true (hl.unset.symm.trans hset)
      obtain ⟨p, node, hs, hn⟩ := node?_field h hf (by simp [hk, Kind.isMap]) hr hl
      obtain ⟨part, i, rfl, hi⟩ := node_of_message hs hk
      exact ⟨part, i, hn, hi⟩
  · intro f vs i node h hi
    obtain ⟨p, v, -, hs⟩ := node?_index h hi
    exact ⟨fun enum => node_of_enum hs, fun target => node_of_message hs⟩
  · intro t m ht hread part i hw n f hn
    obtain ⟨hp, hroot⟩ := root_fits ht hread
    cases hroot with
    | message hmem hm => exact hw.shaped hp (hp.messages _ hmem) hm hn

end Registry

end WireQuery
