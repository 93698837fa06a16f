import WireQuery.Message.Reader
import WireQuery.Proofs.Message.Slots
import WireQuery.Proofs.Schema.Linked

namespace WireQuery

/-- What messages of a type can be. -/
abbrev Fitting := MessageDef → Message → Prop

namespace Value

/-- One value of a field, alone or in a list. -/
def FitsOne (p : Pool) (nested : Fitting) (f : FieldDef) : Value → Prop
  | .scalar s => f.kind.readScalar? s.payload = some s
  | .message m => ∃ name ty, f.kind = .message name ∧ p.message? name = some ty ∧ nested ty m
  | _ => False

def Fits (p : Pool) (nested entry : Fitting) (f : FieldDef) : Value → Prop
  | .list vs => f.isRepeated = true ∧ f.kind.isMap = false ∧ ∀ v ∈ vs, v.FitsOne p nested f
  | .map entries => ∃ name ty, f.kind = .map name ∧ p.message? name = some ty ∧ ∀ e ∈ entries, entry ty.entryPart e
  | v => f.isRepeated = false ∧ v.FitsOne p nested f

end Value

def Extra.Fits (p : Pool) (levels : Nat) (nested entry : Fitting) (ty : MessageDef) (n : Nat) : Extra → Prop
  | .extension f v => ty.numbered? n = some f ∧ f.extension = true ∧ v.Fits p nested entry f
  | .unknown ps => ty.numbered? n = none ∧ ps ≠ [] ∧ (0 < n ∧ n < 2 ^ 29) ∧
      ∀ x ∈ ps, x.Readable p.framing (some ty) n ∧ x.groupDepth ≤ levels

structure Message.FitsFields (p : Pool) (levels : Nat) (nested entry : Fitting) (ty : MessageDef)
    (m : Message) : Prop where
  ascending : Message.Ascending m.slots
  slots : ∀ s ∈ m.slots,
    ty.numbered? s.1.number = some s.1 ∧ s.1.extension = false ∧ s.2.Fits p nested entry s.1
  oneofs : ∀ s ∈ m.slots, ∀ t ∈ m.slots,
    s.1.number ≠ t.1.number → s.1.oneof = none ∨ s.1.oneof ≠ t.1.oneof
  ascendingExtras : m.extras.Pairwise (·.1 < ·.1)
  extras : ∀ x ∈ m.extras, x.2.Fits p levels nested entry ty x.1

namespace Pool

/-- An entry has both parts of its map, set or not. -/
def FitsEntry (p : Pool) (levels : Nat) (nested : Fitting) : Fitting := fun ty e =>
  e.FitsFields p levels nested (fun _ _ => False) ty ∧ e.slots.map (·.1) = ty.fields ∧
    ∀ x ∈ e.extras, x.1 = 1 ∨ x.1 = 2

def FitsIn (p : Pool) (levels : Nat) (nested : Fitting) : Fitting := fun ty m =>
  m.FitsFields p levels nested (p.FitsEntry levels nested) ty

/-- With `levels` messages that may still open inside each other. The value of an entry can be a message that was
never opened. -/
def Fits (p : Pool) : (levels : Nat) → Fitting
  | 0 => p.FitsIn 0 (fun _ m => m = {})
  | levels + 1 => p.FitsIn (levels + 1) (p.Fits levels)

end Pool

namespace MessageDef

theorem numbered?_mem {ty : MessageDef} (h : ty.numbered? n = some f) :
    f ∈ ty.fields ++ ty.extensions ∧ f.number = n :=
  ⟨List.mem_of_find?_eq_some h, by simpa using List.find?_some h⟩

theorem linked_of_numbered? {ty : MessageDef} (ht : ty.Linked known) (h : ty.numbered? n = some f) :
    f.Linked known := ht.mem (numbered?_mem h).1

theorem numbered?_of_mem {ty : MessageDef} (ht : ty.Linked known) (hf : f ∈ ty.fields) :
    ty.numbered? f.number = some f := by
  have hfind : ty.fields.find? (·.number = f.number) = some f := by
    obtain ⟨before, after, hs⟩ := List.append_of_mem hf
    have ha := ht.ascending
    rw [hs] at ha ⊢
    rw [List.find?_append, List.find?_eq_none.mpr, Option.none_or, List.find?_cons_of_pos (by simp)]
    intro g hg
    have := (List.pairwise_append.mp ha).2.2 g hg f List.mem_cons_self
    simp
    omega
  rw [numbered?, List.find?_append, hfind, Option.some_or]

/-- A field without a default starts from the zero of its kind. -/
theorem readScalar?_undeclared {f : FieldDef} (hd : f.default = none) (hs : f.initial = .scalar s) :
    f.kind.readScalar? s.payload = some s := by
  obtain ⟨hm, rfl⟩ := scalar_of_initial hs
  unfold FieldDef.initialScalar
  rw [hd]
  cases hk : f.kind with
  | scalar k => exact ScalarKind.read?_payload (ScalarKind.kind?_zero k)
  | enum name => exact Kind.readScalar?_enum name 0
  | message name => simp [hk, Kind.isMessage] at hm
  | map name => simp [hk, Kind.isMessage] at hm

theorem entryPart_linked {ty : MessageDef} (ht : ty.Linked known) : ty.entryPart.Linked known := by
  constructor
  · intro f hf
    obtain ⟨g, hg, rfl⟩ := List.mem_map.mp hf
    obtain ⟨he, hl⟩ := ht.fields g (List.mem_filter.mp hg).1
    refine ⟨he, ⟨hl.number, hl.known, ?_, hl.packed⟩⟩
    intro s hs
    by_cases hn : g.number = 1
    · exact readScalar?_undeclared (by simp [hn]) hs
    · apply hl.initial s
      rw [← hs]
      simp [FieldDef.initial, FieldDef.initialScalar, hn]
  · simp [entryPart]
  · exact List.pairwise_map.mpr (ht.ascending.filter _)

theorem mem_entryPart {ty : MessageDef} (h : f ∈ ty.entryPart.fields) :
    f.oneof = none ∧ (f.number = 1 ∨ f.number = 2) := by
  obtain ⟨g, hg, rfl⟩ := List.mem_map.mp h
  exact ⟨rfl, by simpa using (List.mem_filter.mp hg).2⟩

end MessageDef

section Values

variable {p : Pool} {nested : Fitting} {entry : Fitting} {levels : Nat} {f : FieldDef} {ty : MessageDef}

theorem FieldDef.initial_map (hk : f.kind = .map name) : f.initial = .map [] := by
  simp [FieldDef.initial, hk]

theorem FieldDef.initial_list (hr : f.isRepeated = true) (hk : f.kind.isMap = false) : f.initial = .list [] := by
  unfold FieldDef.initial
  cases hc : f.kind <;> simp_all [Kind.isMap]

theorem FieldDef.initial_message (hr : f.isRepeated = false) (hk : f.kind = .message name) :
    f.initial = .message {} := by
  simp [FieldDef.initial, hk, hr]

theorem FieldDef.initial_scalar (hr : f.isRepeated = false) (hk : f.kind.isMessage = false) :
    f.initial = .scalar f.initialScalar := by
  unfold FieldDef.initial
  cases hc : f.kind <;> simp_all [Kind.isMessage]

theorem FieldDef.initial_fits (hf : f.Sound p) (hs : ∀ ty, nested ty {}) : f.initial.Fits p nested entry f := by
  cases hr : f.isRepeated with
  | true =>
    cases hc : f.kind with
    | map name =>
      obtain ⟨ty, ht⟩ := Option.isSome_iff_exists.mp (hc ▸ hf.known : Kind.Known p (.map name))
      rw [FieldDef.initial_map hc]
      exact ⟨name, ty, hc, ht, by simp⟩
    | _ =>
      rw [FieldDef.initial_list hr (by simp [hc, Kind.isMap])]
      exact ⟨hr, by simp [hc, Kind.isMap], by simp⟩
  | false =>
    cases hc : f.kind with
    | map name =>
      obtain ⟨ty, ht⟩ := Option.isSome_iff_exists.mp (hc ▸ hf.known : Kind.Known p (.map name))
      rw [FieldDef.initial_map hc]
      exact ⟨name, ty, hc, ht, by simp⟩
    | message name =>
      obtain ⟨ty, ht⟩ := Option.isSome_iff_exists.mp (hc ▸ hf.known : Kind.Known p (.message name))
      rw [FieldDef.initial_message hr hc]
      exact ⟨hr, name, ty, hc, ht, hs ty⟩
    | _ =>
      have hi := FieldDef.initial_scalar hr (by simp [hc, Kind.isMessage])
      rw [hi]
      exact ⟨hr, hf.initial _ hi⟩

theorem Value.FitsOne.isMap {v : Value} (h : v.FitsOne p nested f) : f.kind.isMap = false := by
  cases v with
  | scalar s => cases hc : f.kind <;> simp_all [Value.FitsOne, Kind.readScalar?, Kind.isMap]
  | message m =>
    obtain ⟨name, ty, hc, -⟩ := h
    rw [hc]
    rfl
  | list vs => exact False.elim h
  | map entries => exact False.elim h

theorem Value.FitsOne.alone {v : Value} (h : v.FitsOne p nested f) (hr : f.isRepeated = false) :
    v.Fits p nested entry f := by
  cases v with
  | scalar s => exact ⟨hr, h⟩
  | message m => exact ⟨hr, h⟩
  | list vs => exact False.elim h
  | map entries => exact False.elim h

/-- Merging fields that were read into a message that fits gives one that fits. -/
def Pool.Keeps (p : Pool) (merge : Pool.Nested) (fits : Fitting) : Prop :=
  ∀ (ty : MessageDef) m fields m', ty.Sound p → fits ty m → Wire.Readable p.framing (some ty) fields →
    merge ty m fields = some m' → fits ty m'

/-- An entry that was read fits the type of its map. -/
def Pool.KeepsEntry (p : Pool) (merge : Pool.Nested) (fits : Fitting) : Prop :=
  ∀ (ty : MessageDef) parts e, ty.Sound p → Wire.Readable p.framing (some ty.entryPart) parts →
    (∀ x ∈ parts, x.1 = 1 ∨ x.1 = 2) → merge ty.entryPart ty.entryStart parts = some e → fits ty.entryPart e

theorem Pool.sound_of_message? (hp : p.Sound) (h : p.message? name = some ty) : ty.Sound p :=
  hp.messages ty (List.mem_of_find?_eq_some h)

theorem framing_inside (hn : ty.numbered? n = some f) (hk : f.kind = .message name) :
    p.framing.inside (some ty) n = p.message? name := by
  simp [Pool.framing, hn, hk]

variable {merge : Pool.Nested} {payload : Wire.Payload}

/-- What was merged are the fields of a group, or those that the bytes hold. -/
theorem mergeBody_inv (h : p.mergeBody merge f name old payload = some m) :
    ∃ ty fields, p.message? name = some ty ∧ merge ty old fields = some m ∧
      (f.group = true ∧ payload = .group fields ∨
        f.group = false ∧ ∃ b, payload = .bytes b ∧ p.readFields ty b = some fields) := by
  obtain ⟨ty, ht, h⟩ := Option.bind_eq_some_iff.mp h
  dsimp only at h
  split at h
  · exact ⟨ty, _, ht, h, .inl ⟨‹_›, rfl⟩⟩
  · obtain ⟨fields, hf, h⟩ := Option.bind_eq_some_iff.mp h
    exact ⟨ty, fields, ht, h, .inr ⟨‹_›, _, rfl, hf⟩⟩
  · contradiction

theorem mergeBody_fits (hp : p.Sound) (hm : p.Keeps merge nested) (hn : ty.numbered? n = some f)
    (hr : payload.Readable p.framing (some ty) n) (hk : f.kind = .message name)
    (ho : ∀ ty, p.message? name = some ty → nested ty old) (h : p.mergeBody merge f name old payload = some m) :
    ∃ ty, p.message? name = some ty ∧ nested ty m := by
  obtain ⟨target, fields, hi, h, hf⟩ := mergeBody_inv h
  refine ⟨target, hi, hm target old fields m (Pool.sound_of_message? hp hi) (ho target hi) ?_ h⟩
  rcases hf with ⟨-, rfl⟩ | ⟨-, b, -, hb⟩
  · have hg := hr.2
    rwa [framing_inside hn hk, hi] at hg
  · exact Wire.readable_of_read hb

theorem readElement_fits (hp : p.Sound) (hm : p.Keeps merge nested) (hs : ∀ ty, nested ty {})
    (hn : ty.numbered? n = some f) (hr : payload.Readable p.framing (some ty) n)
    (h : p.readElement merge f payload = some v) : v.FitsOne p nested f := by
  unfold Pool.readElement at h
  split at h
  · next name hk =>
    obtain ⟨m, hb, rfl⟩ := Option.map_eq_some_iff.mp h
    obtain ⟨target, hi, hf⟩ := mergeBody_fits hp hm hn hr hk (fun ty _ => hs ty) hb
    exact ⟨name, target, hk, hi, hf⟩
  · obtain ⟨s, hb, rfl⟩ := Option.map_eq_some_iff.mp h
    exact Kind.readScalar?_payload hb

theorem mergeList_fits (hp : p.Sound) (hm : p.Keeps merge nested) (hs : ∀ ty, nested ty {})
    (hn : ty.numbered? n = some f) (hr : payload.Readable p.framing (some ty) n)
    (ho : ∀ v ∈ old, v.FitsOne p nested f) (h : p.mergeList merge f old payload = some vs) :
    ∀ v ∈ vs, v.FitsOne p nested f := by
  unfold Pool.mergeList at h
  split at h
  · obtain ⟨ss, hb, rfl⟩ := Option.map_eq_some_iff.mp h
    obtain ⟨payloads, _, hss⟩ := Option.bind_eq_some_iff.mp hb
    intro v hv
    rcases List.mem_append.mp hv with hv | hv
    · exact ho v hv
    · obtain ⟨s, hi, rfl⟩ := List.mem_map.mp hv
      obtain ⟨x, _, hx⟩ := mem_of_mapM hss hi
      exact Kind.readScalar?_payload hx
  · obtain ⟨w, hb, rfl⟩ := Option.map_eq_some_iff.mp h
    intro v hv
    rcases List.mem_append.mp hv with hv | hv
    · exact ho v hv
    · rw [List.mem_singleton.mp hv]
      exact readElement_fits hp hm hs hn hr hb

theorem mergeSingle_fits (hp : p.Sound) (hm : p.Keeps merge nested) (hn : ty.numbered? n = some f)
    (hr : payload.Readable p.framing (some ty) n) (ho : old.FitsOne p nested f)
    (h : p.mergeSingle merge f old payload = some v) : v.FitsOne p nested f := by
  unfold Pool.mergeSingle at h
  split at h
  · next name m hk =>
    obtain ⟨m', hb, rfl⟩ := Option.map_eq_some_iff.mp h
    obtain ⟨_, target, hk', hi, hf⟩ := ho
    have hold (t : MessageDef) (ht : p.message? name = some t) : nested t m := by
      rw [hk] at hk'
      cases hk'
      rw [hi] at ht
      cases ht
      exact hf
    obtain ⟨target, hi, hf⟩ := mergeBody_fits hp hm hn hr hk hold hb
    exact ⟨name, target, hk, hi, hf⟩
  · obtain ⟨s, hb, rfl⟩ := Option.map_eq_some_iff.mp h
    exact Kind.readScalar?_payload hb

theorem mem_putEntry (h : x ∈ Message.putEntry e es) : x = e ∨ x ∈ es := by
  induction es with
  | nil => exact .inl (List.mem_singleton.mp h)
  | cons d es ih =>
    rw [Message.putEntry] at h
    split at h
    · rcases List.mem_cons.mp h with he | h
      · exact .inl he
      · exact .inr (List.mem_cons_of_mem _ h)
    · rcases List.mem_cons.mp h with rfl | h
      · exact .inr List.mem_cons_self
      · rcases ih h with he | h
        · exact .inl he
        · exact .inr (List.mem_cons_of_mem _ h)

variable {mergeEntry : Pool.Nested} {old v : Value}

theorem mergeValue_list (hk : f.kind.isMap = false) (hr : f.isRepeated = true) :
    p.mergeValue levels merge mergeEntry f (.list vs) payload = (p.mergeList merge f vs payload).map .list := by
  unfold Pool.mergeValue
  cases hc : f.kind <;> simp_all [Kind.isMap]

theorem mergeValue_single (hk : f.kind.isMap = false) (hr : f.isRepeated = false) (hl : ∀ vs, old ≠ .list vs) :
    p.mergeValue levels merge mergeEntry f old payload = p.mergeSingle merge f old payload := by
  unfold Pool.mergeValue
  cases hc : f.kind <;> cases old <;> simp_all [Kind.isMap]

/-- The fields of an entry are its parts; the others are passed over. -/
theorem mergeValue_map_inv (hk : f.kind = .map name) (hi : p.message? name = some target)
    (h : p.mergeValue levels merge mergeEntry f (.map entries) payload = some v) :
    ∃ b fields e, payload = .bytes b ∧ p.readFields target.entryPart b = some fields ∧
      mergeEntry target.entryPart target.entryStart (fields.filter (fun x => x.1 = 1 || x.1 = 2)) = some e ∧
      v = .map (Message.putEntry e entries) := by
  unfold Pool.mergeValue at h
  rw [hk] at h
  cases payload with
  | bytes b =>
    simp only [hi, Option.bind_eq_bind, Option.bind_some] at h
    obtain ⟨fields, hf, h⟩ := Option.bind_eq_some_iff.mp h
    rw [List.partition_eq_filter_filter] at h
    dsimp only at h
    split at h
    · obtain ⟨e, he, rfl⟩ := Option.map_eq_some_iff.mp h
      exact ⟨b, fields, e, rfl, hf, he, rfl⟩
    · contradiction
  | _ => contradiction

theorem mergeValue_fits (hp : p.Sound) (hm : p.Keeps merge nested) (hs : ∀ ty, nested ty {})
    (he : p.KeepsEntry mergeEntry entry) (hn : ty.numbered? n = some f)
    (hr : payload.Readable p.framing (some ty) n) (ho : old.Fits p nested entry f)
    (h : p.mergeValue levels merge mergeEntry f old payload = some v) : v.Fits p nested entry f := by
  cases old with
  | list vs =>
    obtain ⟨hrep, hk, hvs⟩ := ho
    rw [mergeValue_list hk hrep] at h
    obtain ⟨ws, hl, rfl⟩ := Option.map_eq_some_iff.mp h
    exact ⟨hrep, hk, mergeList_fits hp hm hs hn hr hvs hl⟩
  | map entries =>
    obtain ⟨name, target, hk, hi, hes⟩ := ho
    obtain ⟨b, fields, e, rfl, hf, hb, rfl⟩ := mergeValue_map_inv hk hi h
    have hparts : Wire.Readable p.framing (some target.entryPart) (fields.filter (fun x => x.1 = 1 || x.1 = 2)) :=
      (Wire.readable_of_read hf).filter _
    have hnew := he target _ e (Pool.sound_of_message? hp hi) hparts
      (fun x hx => by simpa using (List.mem_filter.mp hx).2) hb
    refine ⟨name, target, hk, hi, ?_⟩
    intro d hd
    rcases mem_putEntry hd with rfl | hd
    · exact hnew
    · exact hes d hd
  | _ =>
    obtain ⟨hrep, hone⟩ := ho
    rw [mergeValue_single hone.isMap hrep (by simp)] at h
    exact (mergeSingle_fits hp hm hn hr hone h).alone hrep

variable {m : Message}

theorem Message.FitsFields.get (hm : m.FitsFields p levels nested entry ty) (ht : ty.Sound p)
    (hs : ∀ ty, nested ty {}) (hn : ty.numbered? n = some f) : (m.get f).Fits p nested entry f := by
  obtain ⟨hf, rfl⟩ := MessageDef.numbered?_mem hn
  unfold Message.get
  cases hg : m.get? f with
  | none => exact FieldDef.initial_fits (MessageDef.linked_of_numbered? ht hn) hs
  | some v =>
    unfold Message.get? at hg
    split at hg
    · split at hg
      · next g w he =>
        cases hg
        obtain ⟨hn', -, hv⟩ := hm.extras _ (Message.mem_of_extraIn? he)
        obtain rfl := Option.some.inj (hn.symm.trans hn')
        exact hv
      · contradiction
    · obtain ⟨g, hmem, hnum⟩ := Message.mem_of_slotIn? hg
      obtain ⟨hn', -, hv⟩ := hm.slots _ hmem
      dsimp only at hn'
      rw [hnum] at hn'
      obtain rfl := Option.some.inj (hn.symm.trans hn')
      exact hv

theorem Message.FitsFields.set (hm : m.FitsFields p levels nested entry ty) (hn : ty.numbered? n = some f)
    (hv : v.Fits p nested entry f) : (m.set f v).FitsFields p levels nested entry ty := by
  obtain ⟨-, rfl⟩ := MessageDef.numbered?_mem hn
  cases hx : f.extension with
  | true =>
    rw [Message.set, if_pos hx]
    refine ⟨hm.ascending, hm.slots, hm.oneofs, Message.ascending_putExtra hm.ascendingExtras, ?_⟩
    intro x hmem
    rcases Message.eq_or_mem_of_putExtra hmem with rfl | hmem
    · exact ⟨hn, hx, hv⟩
    · exact hm.extras x hmem
  | false =>
    rw [Message.set_slots m hx]
    have hkept : Message.Ascending (m.kept f) := hm.ascending.filter _
    have hmem {s : FieldDef × Value} (hs : s ∈ Message.putSlot f v (m.kept f)) :
        s = (f, v) ∨ s ∈ m.slots ∧ (f.oneof = none ∨ s.1.oneof ≠ f.oneof) := by
      rcases Message.number_ne_of_putSlot hkept hs with he | ⟨hs, hne⟩
      · exact .inl he
      · obtain ⟨hs, ho⟩ := Message.mem_kept.mp hs
        exact .inr ⟨hs, ho.imp_right (·.resolve_right hne)⟩
    refine ⟨Message.ascending_putSlot hkept, ?_, ?_, hm.ascendingExtras, hm.extras⟩
    · intro s hs
      rcases hmem hs with rfl | ⟨hs, -⟩
      · exact ⟨hn, hx, hv⟩
      · exact hm.slots s hs
    · intro s hs t ht hne
      rcases hmem hs with rfl | ⟨hs, ho⟩
      · rcases hmem ht with rfl | ⟨ht, ho⟩
        · exact absurd rfl hne
        · exact ho.imp_right Ne.symm
      · rcases hmem ht with rfl | ⟨ht, ho'⟩
        · rcases ho with ho | ho
          · cases hc : s.1.oneof with
            | none => exact .inl rfl
            | some i => exact .inr (by simp [ho])
          · exact .inr ho
        · exact hm.oneofs s hs t ht hne

theorem Message.FitsFields.addUnknown (hm : m.FitsFields p levels nested entry ty) (hn : ty.numbered? n = none)
    (hb : 0 < n ∧ n < 2 ^ 29) (hr : payload.Readable p.framing (some ty) n) (hd : payload.groupDepth ≤ levels) :
    (m.addUnknown n payload).FitsFields p levels nested entry ty := by
  refine ⟨hm.ascending, hm.slots, hm.oneofs, Message.ascending_putExtra hm.ascendingExtras, ?_⟩
  intro x hx
  rcases Message.eq_or_mem_of_putExtra hx with rfl | hx
  · refine ⟨hn, by simp, hb, ?_⟩
    intro y hy
    rcases List.mem_append.mp hy with hy | hy
    · split at hy
      · next ps he => exact (hm.extras _ (Message.mem_of_extraIn? he)).2.2.2 y hy
      · contradiction
    · rw [List.mem_singleton.mp hy]
      exact ⟨hr, hd⟩
  · exact hm.extras x hx

theorem mergeField_fits (hp : p.Sound) (ht : ty.Sound p) (hm : p.Keeps merge nested) (hs : ∀ ty, nested ty {})
    (he : p.KeepsEntry mergeEntry entry) (hx : (0 < x.1 ∧ x.1 < 2 ^ 29) ∧ x.2.Readable p.framing (some ty) x.1)
    (ho : m.FitsFields p levels nested entry ty) (h : p.mergeField levels merge mergeEntry ty m x = some m') :
    m'.FitsFields p levels nested entry ty := by
  unfold Pool.mergeField at h
  split at h
  · next f hn =>
    obtain ⟨v, hv, rfl⟩ := Option.map_eq_some_iff.mp h
    exact ho.set hn (mergeValue_fits hp hm hs he hn hx.2 (ho.get ht hs hn) hv)
  · next hn =>
    split at h
    · next hd =>
      cases h
      exact ho.addUnknown hn hx.1 hx.2 hd
    · contradiction

theorem foldlM_keeps {P : β → Prop} {f : β → α → Option β} {xs : List α}
    (hf : ∀ x ∈ xs, ∀ b c, P b → f b x = some c → P c)
    (hb : P b) (h : xs.foldlM f b = some c) : P c := by
  induction xs generalizing b with
  | nil =>
    cases h
    exact hb
  | cons x xs ih =>
    rw [List.foldlM_cons] at h
    obtain ⟨d, hd, h⟩ := Option.bind_eq_some_iff.mp h
    exact ih (fun y hy => hf y (List.mem_cons_of_mem _ hy)) (hf x List.mem_cons_self b d hb hd) h

theorem mergeFields_keeps (hp : p.Sound) (hm : p.Keeps merge nested) (hs : ∀ ty, nested ty {})
    (he : p.KeepsEntry (p.mergeParts levels merge) (p.FitsEntry levels nested)) :
    p.Keeps (p.mergeFields levels merge) (p.FitsIn levels nested) := by
  intro ty m fields m' ht ho hr h
  have hall := Wire.readable_iff.mp hr
  exact foldlM_keeps (fun x hx _ _ ho h => mergeField_fits hp ht hm hs he (hall x hx) ho h) ho h

theorem mem_of_numbered?_entryPart {ty : MessageDef} (h : ty.entryPart.numbered? n = some f) :
    f ∈ ty.entryPart.fields := by
  have hf := (MessageDef.numbered?_mem h).1
  rwa [show ty.entryPart.extensions = [] from rfl, List.append_nil] at hf

theorem entryStart_fits (ht : ty.Sound p) (hs : ∀ ty, nested ty {}) :
    p.FitsEntry levels nested ty.entryPart ty.entryStart := by
  have hl := MessageDef.entryPart_linked ht
  refine ⟨⟨List.pairwise_map.mpr hl.ascending, ?_, ?_, List.Pairwise.nil, by simp [MessageDef.entryStart]⟩, ?_,
    by simp [MessageDef.entryStart]⟩
  · intro s hm
    obtain ⟨f, hf, rfl⟩ := List.mem_map.mp hm
    obtain ⟨hx, hf'⟩ := hl.fields f hf
    exact ⟨MessageDef.numbered?_of_mem hl hf, hx, FieldDef.initial_fits hf' hs⟩
  · intro s hm t _ _
    obtain ⟨f, hf, rfl⟩ := List.mem_map.mp hm
    exact .inl (MessageDef.mem_entryPart hf).1
  · simp [MessageDef.entryStart, Function.comp_def]

/-- A part takes the slot that the entry already has for it. -/
theorem set_part (ht : ty.Sound p) (hm : p.FitsEntry levels nested ty.entryPart m)
    (hn : ty.entryPart.numbered? n = some f) : (m.set f v).slots.map (·.1) = ty.entryPart.fields ∧
      (m.set f v).extras = m.extras := by
  have hf := mem_of_numbered?_entryPart hn
  have hx := ((MessageDef.entryPart_linked ht).fields f hf).1
  rw [m.set_outside_oneof hx (MessageDef.mem_entryPart hf).1]
  exact ⟨(Message.putSlot_fields hm.1.ascending (by rwa [hm.2.1])).trans hm.2.1, rfl⟩

theorem mergeParts_keeps (hp : p.Sound) (hm : p.Keeps merge nested) (hs : ∀ ty, nested ty {}) :
    p.KeepsEntry (p.mergeParts levels merge) (p.FitsEntry levels nested) := by
  intro ty parts e ht hr hparts h
  have hall := Wire.readable_iff.mp hr
  have hnone : p.KeepsEntry (fun _ _ _ => none) (fun _ _ => False) := by
    intro ty parts e _ _ _ h
    contradiction
  refine foldlM_keeps ?_ (entryStart_fits ht hs) h
  intro x hx m m' ho h
  have hl := MessageDef.entryPart_linked ht
  have hfits := mergeField_fits hp hl hm hs hnone (hall x hx) ho.1 h
  unfold Pool.mergeField at h
  split at h
  · next f hn =>
    obtain ⟨v, hv, rfl⟩ := Option.map_eq_some_iff.mp h
    obtain ⟨hslots, hextras⟩ := set_part (v := v) ht ho hn
    exact ⟨hfits, hslots, by rw [hextras]; exact ho.2.2⟩
  · split at h
    · cases h
      refine ⟨hfits, ho.2.1, ?_⟩
      intro y hy
      rcases Message.eq_or_mem_of_putExtra hy with rfl | hy
      · exact hparts x hx
      · exact ho.2.2 y hy
    · contradiction

end Values

section More

variable {p : Pool} {levels k : Nat} {nested nested' entry entry' : Fitting} {f : FieldDef} {ty : MessageDef}
  {v : Value} {m : Message}

theorem Value.FitsOne.imp (h : v.FitsOne p nested f) (hn : ∀ ty m, nested ty m → nested' ty m) :
    v.FitsOne p nested' f := by
  cases v with
  | scalar s => exact h
  | message m =>
    obtain ⟨name, ty, hk, hi, hf⟩ := h
    exact ⟨name, ty, hk, hi, hn ty m hf⟩
  | list vs => exact h
  | map entries => exact h

theorem Value.Fits.imp (h : v.Fits p nested entry f) (hn : ∀ ty m, nested ty m → nested' ty m)
    (he : ∀ ty m, entry ty m → entry' ty m) : v.Fits p nested' entry' f := by
  cases v with
  | scalar s => exact h
  | message m => exact ⟨h.1, h.2.imp hn⟩
  | list vs => exact ⟨h.1, h.2.1, fun v hv => (h.2.2 v hv).imp hn⟩
  | map entries =>
    obtain ⟨name, ty, hk, hi, hes⟩ := h
    exact ⟨name, ty, hk, hi, fun e hm => he _ e (hes e hm)⟩

theorem Message.FitsFields.imp (h : m.FitsFields p levels nested entry ty) (hl : levels ≤ k)
    (hn : ∀ ty m, nested ty m → nested' ty m) (he : ∀ ty m, entry ty m → entry' ty m) :
    m.FitsFields p k nested' entry' ty := by
  refine ⟨h.ascending, ?_, h.oneofs, h.ascendingExtras, ?_⟩
  · intro s hs
    obtain ⟨hn', hx, hv⟩ := h.slots s hs
    exact ⟨hn', hx, hv.imp hn he⟩
  · intro x hx
    have hf := h.extras x hx
    obtain ⟨n, e⟩ := x
    cases e with
    | extension f v => exact ⟨hf.1, hf.2.1, hf.2.2.imp hn he⟩
    | unknown ps =>
      obtain ⟨hnone, hne, hb, hps⟩ := hf
      exact ⟨hnone, hne, hb, fun y hy => ⟨(hps y hy).1, Nat.le_trans (hps y hy).2 hl⟩⟩

theorem Pool.FitsIn.imp (h : p.FitsIn levels nested ty m) (hl : levels ≤ k)
    (hn : ∀ ty m, nested ty m → nested' ty m) : p.FitsIn k nested' ty m :=
  Message.FitsFields.imp h hl hn (fun _ _ he => ⟨he.1.imp hl hn (fun _ _ h => h), he.2⟩)

end More

namespace Pool

variable {p : Pool}

theorem empty_fitsIn (levels : Nat) (nested : Fitting) (ty : MessageDef) : p.FitsIn levels nested ty {} :=
  ⟨List.Pairwise.nil, by simp, by simp, List.Pairwise.nil, by simp⟩

theorem empty_fits (levels : Nat) (ty : MessageDef) : p.Fits levels ty {} := by
  cases levels <;> exact empty_fitsIn _ _ ty

theorem fits_succ (h : p.Fits levels ty m) : p.Fits (levels + 1) ty m := by
  induction levels generalizing ty m with
  | zero => exact h.imp (Nat.le_succ 0) (fun ty m hm => hm ▸ empty_fits 0 ty)
  | succ levels ih => exact h.imp (Nat.le_succ _) (fun _ _ hm => ih hm)

/-- The messages in a message that fits, fit at the levels of the message. -/
theorem fits_nested (h : p.Fits (levels + 1) ty m) : p.FitsIn (levels + 1) (p.Fits (levels + 1)) ty m :=
  FitsIn.imp h (Nat.le_refl _) (fun _ _ hm => fits_succ hm)

theorem merge_keeps (hp : p.Sound) (levels : Nat) : p.Keeps (p.merge levels) (p.Fits levels) := by
  induction levels with
  | zero =>
    have hnone : p.Keeps (fun _ _ _ => none) (fun _ m => m = {}) := by
      intro ty m fields m' _ _ _ h
      contradiction
    exact mergeFields_keeps hp hnone (fun _ => rfl) (mergeParts_keeps hp hnone (fun _ => rfl))
  | succ levels ih =>
    exact mergeFields_keeps hp ih (empty_fits levels) (mergeParts_keeps hp ih (empty_fits levels))

/-- What was read fits its type. -/
theorem read?_fits (hp : p.Sound) (ht : ty.Sound p) (h : p.read? ty b = some m) : p.Fits maxLevels ty m := by
  obtain ⟨fields, hf, h⟩ := Option.bind_eq_some_iff.mp h
  exact merge_keeps hp maxLevels ty {} fields m ht (empty_fits _ _) (Wire.readable_of_read hf) h

end Pool

end WireQuery
