import WireQuery.Proofs.Message.Fits
import WireQuery.Proofs.Message.Settle

namespace WireQuery

mutual

/-- Whether messages open at most `levels` deep inside each other, and no map has more than one key. -/
def Value.within (levels : Nat) : Value → Bool
  | .scalar _ => true
  | .message m => 0 < levels && m.within (levels - 1)
  | .list vs => listWithin levels vs
  | .map entries => entries.length ≤ 1 && entriesWithin levels entries

def listWithin (levels : Nat) : List Value → Bool
  | [] => true
  | v :: vs => v.within levels && listWithin levels vs

def Message.within (levels : Nat) : Message → Bool
  | ⟨slots, extras⟩ => slotsWithin levels slots && extrasWithin levels extras

def slotsWithin (levels : Nat) : List (FieldDef × Value) → Bool
  | [] => true
  | (_, v) :: slots => v.within levels && slotsWithin levels slots

def extrasWithin (levels : Nat) : List (Nat × Extra) → Bool
  | [] => true
  | (_, .extension _ v) :: extras => v.within levels && extrasWithin levels extras
  | (_, .unknown _) :: extras => extrasWithin levels extras

def entriesWithin (levels : Nat) : List Message → Bool
  | [] => true
  | e :: es => e.within levels && entriesWithin levels es

end

/-- Payloads whose length can be written. -/
def Wire.Short (fields : List Wire.Field) : Prop := ∀ x ∈ fields, (x.2.write x.1).length < 2 ^ 64

namespace Wire

theorem short_of_length {fields : List Field} (h : (write fields).length < 2 ^ 64) : Short fields := by
  induction fields with
  | nil => simp [Short]
  | cons x fields ih =>
    obtain ⟨n, y⟩ := x
    rw [write, List.length_append] at h
    intro z hz
    rcases List.mem_cons.mp hz with rfl | hz
    · dsimp only
      omega
    · exact ih (by omega) z hz

theorem Short.left (h : Short (as ++ bs)) : Short as := fun x hx => h x (List.mem_append_left _ hx)

theorem Short.right (h : Short (as ++ bs)) : Short bs := fun x hx => h x (List.mem_append_right _ hx)

theorem length_le_writeBytes (b : Bytes) : b.length ≤ (writeBytes b).length := by
  rw [writeBytes, List.length_append]
  omega

end Wire

/-- What a field holds is not longer than the field. -/
theorem FieldDef.length_le_wrap (f : FieldDef) (fields : List Wire.Field) (n : Nat) :
    (Wire.write fields).length ≤ ((f.wrap fields).write n).length := by
  unfold wrap
  split
  · simp only [Wire.Payload.write, List.length_append]
    omega
  · have := Wire.length_le_writeBytes (Wire.write fields)
    simp only [Wire.Payload.write, List.length_append]
    omega

section Values

variable {p : Pool} {levels : Nat} {nested entry : Fitting} {merge mergeEntry : Pool.Nested} {ty : MessageDef}
  {f : FieldDef} {v : Value} {n : Nat}

/-- Messages that fit are read back from their own fields, unless they open too deep. -/
def Pool.Rereads (p : Pool) (levels : Nat) (merge : Pool.Nested) (fits : Fitting) : Prop :=
  ∀ (ty : MessageDef) (m : Message), ty.Sound p → fits ty m → (Value.message m).within levels = true →
    (Wire.write m.toFields).length < 2 ^ 64 →
      merge ty {} m.toFields = some m.settle ∧ Wire.Readable p.framing (some ty) m.toFields

theorem sized_eq_false (hn : ty.numbered? n = some f) (hk : f.kind.isMap = false) :
    p.framing.sized (some ty) n = false := by
  simp [Pool.framing, hn, hk]

theorem Scalar.readable_payload {g : Wire.Framing σ} (s : Scalar) (h : g.sized state n = false) :
    s.payload.Readable g state n := by
  cases s <;> first | exact h | exact trivial

theorem mergeBody_wrap (hi : p.message? name = some target) (hr : Wire.Readable p.framing (some target) fields)
    (hl : (Wire.write fields).length < 2 ^ 64) :
    p.mergeBody merge f name old (f.wrap fields) = merge target old fields := by
  unfold Pool.mergeBody FieldDef.wrap
  cases f.group with
  | true => simp [hi]
  | false =>
    have hread : p.readFields target (Wire.write fields) = some fields := Wire.read_write hr hl
    simp [hi, hread]

theorem readable_wrap (hn : ty.numbered? n = some f) (hk : f.kind = .message name) (hi : p.message? name = some target)
    (hr : Wire.Readable p.framing (some target) fields) : (f.wrap fields).Readable p.framing (some ty) n := by
  unfold FieldDef.wrap
  split
  · refine ⟨sized_eq_false hn (by rw [hk]; rfl), ?_⟩
    rwa [framing_inside hn hk, hi]
  · trivial

/-- One value leaves one payload, which reads as the value. -/
theorem reread_one (hp : p.Sound) (hm : p.Rereads levels merge nested) (hn : ty.numbered? n = some f)
    (hv : v.FitsOne p nested f) (hw : v.within levels = true)
    (hl : ∀ x ∈ v.payloads f, (x.write n).length < 2 ^ 64) :
    ∃ x, v.payloads f = [x] ∧ x.Readable p.framing (some ty) n ∧ p.readElement merge f x = some v.settle := by
  cases v with
  | scalar s =>
    refine ⟨s.payload, rfl, s.readable_payload (sized_eq_false hn hv.isMap), ?_⟩
    unfold Pool.readElement
    cases hk : f.kind <;> simp_all [Value.FitsOne, Kind.readScalar?, Value.settle]
  | message m =>
    obtain ⟨name, target, hk, hi, hf⟩ := hv
    have hlen : (Wire.write m.toFields).length < 2 ^ 64 :=
      Nat.lt_of_le_of_lt (f.length_le_wrap m.toFields n) (hl _ (List.mem_singleton_self _))
    obtain ⟨hmerge, hr⟩ := hm target m (Pool.sound_of_message? hp hi) hf hw hlen
    refine ⟨f.wrap m.toFields, rfl, readable_wrap hn hk hi hr, ?_⟩
    unfold Pool.readElement
    rw [hk]
    dsimp only
    rw [mergeBody_wrap hi hr hlen, hmerge, Value.settle]
    rfl
  | list vs => exact False.elim hv
  | map entries => exact False.elim hv

/-- Outside a packed run an element is read alone. -/
theorem mergeList_of_readElement (hx : p.readElement merge f x = some w) (ho : ∀ t, f.kind.packedType? = some t →
    ∃ s, f.kind.readScalar? x = some s) : p.mergeList merge f old x = some (old ++ [w]) := by
  unfold Pool.mergeList
  split
  · next t b ht =>
    obtain ⟨s, hs⟩ := ho t ht
    have := Kind.plainType?_packed ht hs
    simp [Wire.Payload.plainType?] at this
  · rw [hx]
    rfl

theorem Value.FitsOne.scalar_of_packed (hv : v.FitsOne p nested f) (ht : f.kind.packedType? = some t) :
    ∃ s, v = .scalar s ∧ f.kind.readScalar? s.payload = some s := by
  cases v with
  | scalar s => exact ⟨s, rfl, hv⟩
  | message m =>
    obtain ⟨name, target, hk, -⟩ := hv
    simp [hk, Kind.packedType?] at ht
  | list vs => exact False.elim hv
  | map entries => exact False.elim hv

theorem reread_elements (hp : p.Sound) (hm : p.Rereads levels merge nested) (hn : ty.numbered? n = some f)
    (hk : f.kind.isMap = false) (hr : f.isRepeated = true) {vs : List Value} (hv : ∀ v ∈ vs, v.FitsOne p nested f)
    (hw : listWithin levels vs = true) (hl : ∀ x ∈ elementPayloads f vs, (x.write n).length < 2 ^ 64)
    (done : List Value) :
    (elementPayloads f vs).foldlM (p.mergeValue levels merge mergeEntry f) (.list done) =
      some (.list (done ++ settleList vs)) ∧ ∀ x ∈ elementPayloads f vs, x.Readable p.framing (some ty) n := by
  induction vs generalizing done with
  | nil => simp [elementPayloads, settleList]
  | cons v vs ih =>
    simp only [listWithin, Bool.and_eq_true] at hw
    simp only [elementPayloads, List.mem_append] at hl
    have hv1 := hv v List.mem_cons_self
    obtain ⟨x, hx, hxr, hxe⟩ := reread_one hp hm hn hv1 hw.1 (fun x hx => hl x (.inl hx))
    have hone : p.mergeList merge f done x = some (done ++ [v.settle]) := by
      apply mergeList_of_readElement hxe
      intro t ht
      obtain ⟨s, rfl, hs⟩ := hv1.scalar_of_packed ht
      rw [Value.payloads, List.cons.injEq] at hx
      exact ⟨s, hx.1 ▸ hs⟩
    obtain ⟨hrest, hrr⟩ := ih (fun w hw => hv w (List.mem_cons_of_mem _ hw)) hw.2 (fun x hx => hl x (.inr hx))
      (done ++ [v.settle])
    rw [elementPayloads, hx, settleList]
    constructor
    · rw [List.singleton_append, List.foldlM_cons, mergeValue_list hk hr, hone]
      simpa using hrest
    · intro y hy
      rcases List.mem_cons.mp hy with rfl | hy
      · exact hxr
      · exact hrr y hy

theorem scalars_of_packed (ht : f.kind.packedType? = some t) {vs : List Value} (hv : ∀ v ∈ vs, v.FitsOne p nested f) :
    ∃ ss : List Scalar, vs = ss.map .scalar ∧ ∀ s ∈ ss, f.kind.readScalar? s.payload = some s := by
  induction vs with
  | nil => exact ⟨[], rfl, by simp⟩
  | cons v vs ih =>
    obtain ⟨s, rfl, hs⟩ := (hv v List.mem_cons_self).scalar_of_packed ht
    obtain ⟨ss, rfl, hss⟩ := ih (fun w hw => hv w (List.mem_cons_of_mem _ hw))
    exact ⟨s :: ss, rfl, by simpa [hs] using hss⟩

theorem elementPayloads_scalars (f : FieldDef) (ss : List Scalar) :
    elementPayloads f (ss.map .scalar) = ss.map Scalar.payload := by
  induction ss with
  | nil => rfl
  | cons s ss ih =>
    rw [List.map_cons, elementPayloads, ih]
    rfl

theorem settleList_scalars (ss : List Scalar) : settleList (ss.map .scalar) = ss.map .scalar := by
  rw [settleList_eq, List.map_map]
  apply List.map_congr_left
  intro s _
  rw [Function.comp_apply, Value.settle]

theorem readScalar?_all {kind : Kind} {ss : List Scalar} (h : ∀ s ∈ ss, kind.readScalar? s.payload = some s) :
    (ss.map Scalar.payload).mapM kind.readScalar? = some ss := by
  induction ss with
  | nil => rfl
  | cons s ss ih =>
    rw [List.map_cons, List.mapM_cons, h s List.mem_cons_self, ih (fun s hs => h s (List.mem_cons_of_mem _ hs))]
    rfl

/-- All elements of a packed list come back from its one run. -/
theorem reread_run (ht : f.kind.packedType? = some t) {vs : List Value} (hv : ∀ v ∈ vs, v.FitsOne p nested f) :
    p.mergeList merge f old (packRun (elementPayloads f vs)) = some (old ++ settleList vs) := by
  obtain ⟨ss, rfl, hss⟩ := scalars_of_packed ht hv
  have hrun : Wire.readRun t ((ss.map Scalar.payload).flatMap Wire.Payload.body) = some (ss.map Scalar.payload) := by
    apply Wire.readRun_flatMap
    intro x hx r
    obtain ⟨s, hs, rfl⟩ := List.mem_map.mp hx
    exact Kind.readPlain_packed ht (hss s hs) r
  rw [settleList_scalars, elementPayloads_scalars, packRun]
  simp [Pool.mergeList, ht, hrun, readScalar?_all hss]

theorem reread_list (hp : p.Sound) (hm : p.Rereads levels merge nested) (hf : f.Sound p) (hn : ty.numbered? n = some f)
    (hk : f.kind.isMap = false) (hr : f.isRepeated = true) {vs : List Value} (hv : ∀ v ∈ vs, v.FitsOne p nested f)
    (hw : listWithin levels vs = true) (hl : ∀ x ∈ (Value.list vs).payloads f, (x.write n).length < 2 ^ 64) :
    ((Value.list vs).payloads f).foldlM (p.mergeValue levels merge mergeEntry f) (.list []) =
      some (.list (settleList vs)) ∧ ∀ x ∈ (Value.list vs).payloads f, x.Readable p.framing (some ty) n := by
  unfold Value.payloads at hl ⊢
  cases hp' : f.packed with
  | true =>
    obtain ⟨t, ht⟩ := Option.isSome_iff_exists.mp (hf.packed hp')
    simp only [↓reduceIte]
    constructor
    · rw [List.foldlM_cons, mergeValue_list hk hr, reread_run ht hv]
      rfl
    · intro x hx
      rw [List.mem_singleton.mp hx]
      trivial
  | false =>
    simp only [hp', Bool.false_eq_true, ↓reduceIte] at hl ⊢
    exact reread_elements hp hm hn hk hr hv hw hl []

/-- An entry of a map is read back from its own fields, which are all parts of it. -/
def Pool.RereadsEntry (p : Pool) (levels : Nat) (merge : Pool.Nested) (fits : Fitting) : Prop :=
  ∀ (ty : MessageDef) (e : Message), ty.Sound p → fits ty.entryPart e → e.within levels = true →
    (Wire.write e.toFields).length < 2 ^ 64 →
      merge ty.entryPart ty.entryStart e.toFields = some e.settleEntry ∧
        Wire.Readable p.framing (some ty.entryPart) e.toFields ∧ ∀ x ∈ e.toFields, x.1 = 1 ∨ x.1 = 2

theorem mergeValue_entry (hk : f.kind = .map name) (hi : p.message? name = some target)
    (hr : Wire.Readable p.framing (some target.entryPart) fields) (hl : (Wire.write fields).length < 2 ^ 64)
    (hx : ∀ x ∈ fields, x.1 = 1 ∨ x.1 = 2) (hm : mergeEntry target.entryPart target.entryStart fields = some e) :
    p.mergeValue levels merge mergeEntry f (.map entries) (.bytes (Wire.write fields)) =
      some (.map (Message.putEntry e entries)) := by
  have hread : p.readFields target.entryPart (Wire.write fields) = some fields := Wire.read_write hr hl
  have hparts : fields.filter (fun x => x.1 = 1 || x.1 = 2) = fields :=
    List.filter_eq_self.mpr (fun x h => by simpa using hx x h)
  unfold Pool.mergeValue
  rw [hk]
  simp [hi, hread, List.partition_eq_filter_filter, Function.comp_def, hparts, hm]
  intro n x h h1 h2
  have := hx _ h
  omega

/-- A map with one entry is read back from it. -/
theorem reread_entry (hp : p.Sound) (he : p.RereadsEntry levels mergeEntry entry) (hk : f.kind = .map name)
    (hi : p.message? name = some target) {e : Message} (hfits : entry target.entryPart e) (hw : e.within levels = true)
    (hl : (Wire.Payload.write n (.bytes (Wire.write e.toFields))).length < 2 ^ 64) :
    p.mergeValue levels merge mergeEntry f (.map []) (.bytes (Wire.write e.toFields)) =
      some (.map [e.settleEntry]) := by
  have hlen : (Wire.write e.toFields).length < 2 ^ 64 := by
    have := Wire.length_le_writeBytes (Wire.write e.toFields)
    simp only [Wire.Payload.write, List.length_append] at hl
    omega
  obtain ⟨hmerge, hr, hx⟩ := he target e (Pool.sound_of_message? hp hi) hfits hw hlen
  rw [mergeValue_entry hk hi hr hlen hx hmerge]
  rfl

theorem initial_ne_list (hr : f.isRepeated = false) (vs : List Value) : f.initial ≠ .list vs := by
  unfold FieldDef.initial
  cases f.kind <;> simp [hr]

theorem mergeSingle_initial (hr : f.isRepeated = false) :
    p.mergeSingle merge f f.initial x = p.readElement merge f x := by
  unfold Pool.mergeSingle Pool.readElement
  cases hk : f.kind with
  | message name => rw [FieldDef.initial_message hr hk]
  | _ => rfl

/-- The payloads of a value build it up again from the start. -/
theorem reread_value (hp : p.Sound) (hm : p.Rereads levels merge nested) (he : p.RereadsEntry levels mergeEntry entry)
    (hf : f.Sound p) (hn : ty.numbered? n = some f) (hv : v.Fits p nested entry f) (hw : v.within levels = true)
    (hl : ∀ x ∈ v.payloads f, (x.write n).length < 2 ^ 64) :
    (v.payloads f).foldlM (p.mergeValue levels merge mergeEntry f) f.initial = some v.settle ∧
      ∀ x ∈ v.payloads f, x.Readable p.framing (some ty) n := by
  cases v with
  | list vs =>
    obtain ⟨hr, hk, hone⟩ := hv
    rw [FieldDef.initial_list hr hk, Value.settle]
    exact reread_list hp hm hf hn hk hr hone hw hl
  | map entries =>
    obtain ⟨name, target, hk, hi, hes⟩ := hv
    rw [FieldDef.initial_map hk, Value.settle, settleEntries_eq]
    simp only [Value.within, Bool.and_eq_true, decide_eq_true_eq] at hw
    match entries, hw.1 with
    | [], _ => simp [Value.payloads, entryPayloads]
    | [e], _ =>
      have hwe : e.within levels = true := by simpa [entriesWithin] using hw.2
      simp only [Value.payloads, entryPayloads, List.mem_singleton, forall_eq] at hl ⊢
      constructor
      · rw [List.foldlM_cons, reread_entry hp he hk hi (hes e (List.mem_singleton_self e)) hwe hl]
        rfl
      · trivial
  | _ =>
    obtain ⟨hr, hone⟩ := hv
    obtain ⟨x, hx, hxr, hxe⟩ := reread_one hp hm hn hone hw hl
    rw [hx]
    constructor
    · rw [List.foldlM_cons, mergeValue_single hone.isMap hr (initial_ne_list hr), mergeSingle_initial hr, hxe]
      rfl
    · intro y hy
      rwa [List.mem_singleton.mp hy]

end Values

end WireQuery
