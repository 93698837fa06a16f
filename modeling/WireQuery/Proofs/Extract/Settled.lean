import WireQuery.Extract.Walk
import WireQuery.Proofs.Message.RoundTrip

/-!
A walk finds the same in a settled message as in the message itself, up to the sign of a zero.
-/

namespace WireQuery

theorem mem_settleSlots (h : x ∈ settleSlots slots) :
    ∃ s ∈ slots, s.1.isWritten s.2 = true ∧ x = (s.1, s.2.settle) := by
  induction slots with
  | nil => contradiction
  | cons s slots ih =>
    obtain ⟨f, v⟩ := s
    rw [settleSlots] at h
    split at h
    · next hw =>
      rcases List.mem_cons.mp h with rfl | h
      · exact ⟨(f, v), List.mem_cons_self, hw, rfl⟩
      · obtain ⟨s, hs, he⟩ := ih h
        exact ⟨s, List.mem_cons_of_mem _ hs, he⟩
    · obtain ⟨s, hs, he⟩ := ih h
      exact ⟨s, List.mem_cons_of_mem _ hs, he⟩

/-- A slot of a settled message is there if its value leaves anything. -/
theorem slotIn?_settleSlots (ha : Message.Ascending slots) (hs : (f, v) ∈ slots) :
    Message.slotIn? f.number (settleSlots slots) = if f.isWritten v then some v.settle else none := by
  induction slots with
  | nil => contradiction
  | cons s slots ih =>
    obtain ⟨g, w⟩ := s
    obtain ⟨hg, ha⟩ := List.pairwise_cons.mp ha
    rw [settleSlots]
    rcases List.mem_cons.mp hs with he | hs
    · cases he
      cases hw : f.isWritten v with
      | true => simp [Message.slotIn?]
      | false =>
        have hnone : Message.slotIn? f.number (settleSlots slots) = none := by
          refine Message.slotIn?_eq_none ?_
          intro x hx
          obtain ⟨s, hs, -, rfl⟩ := mem_settleSlots hx
          exact Nat.ne_of_gt (hg s hs)
        simpa using hnone
    · have hne : g.number ≠ f.number := Nat.ne_of_lt (hg (f, v) hs)
      split
      · rw [Message.slotIn?, if_neg hne, ih ha hs]
      · exact ih ha hs

section Values

variable {p : Pool} {levels : Nat} {nested entry : Fitting} {ty : MessageDef} {f : FieldDef} {v : Value} {m : Message}

/-- What a value is read back as: settled, or another zero. -/
inductive Value.Settles : Value → Value → Prop
  | settle (v : Value) : Settles v v.settle
  | same (h : s.same t = true) : Settles (.scalar s) (.scalar t)

theorem Value.Settles.scalar (h : Value.Settles (.scalar s) w) : ∃ t, w = .scalar t ∧ (s = t ∨ s.same t = true) := by
  generalize hv : Value.scalar s = v at h
  cases h with
  | settle v =>
    subst hv
    exact ⟨s, by rw [Value.settle], .inl rfl⟩
  | same h =>
    cases hv
    exact ⟨_, rfl, .inr h⟩

theorem Value.Settles.message (h : Value.Settles (.message m) w) : w = .message m.settle := by
  generalize hv : Value.message m = v at h
  cases h with
  | settle v =>
    subst hv
    rw [Value.settle]
  | same h => contradiction

theorem Value.Settles.list (h : Value.Settles (.list vs) w) : w = .list (settleList vs) := by
  generalize hv : Value.list vs = v at h
  cases h with
  | settle v =>
    subst hv
    rw [Value.settle]
  | same h => contradiction

theorem settle_initial (f : FieldDef) : f.initial.settle = f.initial := by
  unfold FieldDef.initial
  split
  · simp [Value.settle, settleEntries]
  · split <;> simp [Value.settle, settleList, Message.settle, settleSlots, settleExtras]
  · split <;> simp [Value.settle, settleList]

theorem payloads_ne_nil (hv : v.FitsOne p nested f) : v.payloads f ≠ [] := by
  cases v with
  | scalar s => simp [Value.payloads]
  | message m => simp [Value.payloads]
  | list vs => exact False.elim hv
  | map entries => exact False.elim hv

/-- Only empty lists and maps leave no payload. -/
theorem settle_eq_initial (hv : v.Fits p nested entry f) (h : v.payloads f = []) : v.settle = f.initial := by
  cases v with
  | scalar s => exact absurd h (payloads_ne_nil hv.2)
  | message m => exact absurd h (payloads_ne_nil hv.2)
  | list vs =>
    obtain ⟨hr, hk, hone⟩ := hv
    cases vs with
    | nil => simp [FieldDef.initial_list hr hk, Value.settle, settleList]
    | cons w ws =>
      have hw := payloads_ne_nil (hone w List.mem_cons_self)
      rw [Value.payloads] at h
      split at h
      · contradiction
      · exact absurd (List.append_eq_nil_iff.mp h).1 hw
  | map entries =>
    obtain ⟨name, target, hk, -⟩ := hv
    cases entries with
    | nil => simp [FieldDef.initial_map hk, Value.settle, settleEntries]
    | cons e es => simp [Value.payloads, entryPayloads] at h

theorem settles_initial (hv : v.Fits p nested entry f) (h : f.isWritten v = false) : v.Settles f.initial := by
  cases hset : f.isSet v with
  | false =>
    have hinit := unset_eq_initial hv hset
    simp only [FieldDef.isSet, Bool.or_eq_false_iff, Bool.not_eq_false'] at hset
    rw [← hinit]
    cases v with
    | scalar s => exact .same hset.2
    | message m => simp [FieldDef.isInitial] at hset
    | list vs =>
      obtain rfl : vs = [] := List.isEmpty_iff.mp hset.2
      have hs := Value.Settles.settle (.list [])
      rwa [Value.settle, settleList] at hs
    | map entries =>
      obtain rfl : entries = [] := List.isEmpty_iff.mp hset.2
      have hs := Value.Settles.settle (.map [])
      rwa [Value.settle, settleEntries] at hs
  | true =>
    have hnil : v.payloads f = [] := by simpa [FieldDef.isWritten, hset] using h
    exact settle_eq_initial hv hnil ▸ .settle v

theorem get?_settle (hm : m.FitsFields p levels nested entry ty) (ht : ty.Sound p) (hf : f ∈ ty.fields) :
    m.settle.get? f = (m.get? f).bind (fun v => if f.isWritten v then some v.settle else none) := by
  have hx := (ht.fields f hf).1
  have hslots : m.settle.slots = settleSlots m.slots := by
    obtain ⟨slots, extras⟩ := m
    rw [Message.settle]
  simp only [Message.get?, hx, Bool.false_eq_true, ↓reduceIte, hslots]
  cases hs : Message.slotIn? f.number m.slots with
  | none =>
    refine Message.slotIn?_eq_none ?_
    intro x hx hn
    obtain ⟨⟨g, v⟩, hmem, -, rfl⟩ := mem_settleSlots hx
    have hsome := Message.slotIn?_of_mem hm.ascending hmem
    rw [hn, hs] at hsome
    contradiction
  | some v =>
    obtain ⟨g, hmem, hnum⟩ := Message.mem_of_slotIn? hs
    rw [← hnum, slotIn?_settleSlots hm.ascending hmem]
    obtain ⟨hn, -, -⟩ := hm.slots _ hmem
    obtain rfl : g = f := Option.some.inj (hn.symm.trans (hnum ▸ MessageDef.numbered?_of_mem ht hf))
    rfl

theorem get?_fits (hm : m.FitsFields p levels nested entry ty) (ht : ty.Sound p) (hf : f ∈ ty.fields)
    (h : m.get? f = some v) : v.Fits p nested entry f := by
  simp only [Message.get?, (ht.fields f hf).1, Bool.false_eq_true, ↓reduceIte] at h
  obtain ⟨g, hmem, hnum⟩ := Message.mem_of_slotIn? h
  obtain ⟨hn, -, hv⟩ := hm.slots _ hmem
  obtain rfl : g = f := Option.some.inj (hn.symm.trans (hnum ▸ MessageDef.numbered?_of_mem ht hf))
  exact hv

/-- A field holds in a settled message what its value is read back as. -/
theorem get_settle (hm : m.FitsFields p levels nested entry ty) (ht : ty.Sound p) (hf : f ∈ ty.fields) :
    (m.get f).Settles (m.settle.get f) := by
  rw [Message.get, Message.get, get?_settle hm ht hf]
  cases hg : m.get? f with
  | none =>
    have hi := Value.Settles.settle f.initial
    rwa [settle_initial] at hi
  | some v =>
    rw [Option.bind_some]
    cases hw : f.isWritten v with
    | true => exact .settle v
    | false => exact settles_initial (get?_fits hm ht hf hg) hw

theorem list_of_fits (hk : f.kind.isMap = false) (hr : f.isRepeated = true) (hv : v.Fits p nested entry f) :
    ∃ vs, v = .list vs ∧ ∀ w ∈ vs, w.FitsOne p nested f := by
  cases v with
  | scalar s => exact absurd (hv.1.symm.trans hr) Bool.false_ne_true
  | message m => exact absurd (hv.1.symm.trans hr) Bool.false_ne_true
  | list vs => exact ⟨vs, rfl, hv.2.2⟩
  | map entries =>
    obtain ⟨name, target, hk', -⟩ := hv
    simp [hk', Kind.isMap] at hk

theorem one_of_fits (hk : f.kind.isMap = false) (hr : f.isRepeated = false) (hv : v.Fits p nested entry f) :
    v.FitsOne p nested f := by
  cases v with
  | scalar s => exact hv.2
  | message m => exact hv.2
  | list vs => exact absurd (hr.symm.trans hv.1) Bool.false_ne_true
  | map entries =>
    obtain ⟨name, target, hk', -⟩ := hv
    simp [hk', Kind.isMap] at hk

theorem message_of_fits (hk : f.kind = .message name) (hr : f.isRepeated = false) (hv : v.Fits p nested entry f) :
    ∃ target, v = .message target := by
  cases v with
  | scalar s =>
    have hs : f.kind.readScalar? s.payload = some s := hv.2
    simp [hk, Kind.readScalar?] at hs
  | message target => exact ⟨target, rfl⟩
  | list vs => exact absurd (hr.symm.trans hv.1) Bool.false_ne_true
  | map entries =>
    obtain ⟨name, target, hk', -⟩ := hv
    rw [hk] at hk'
    contradiction

/-- A message that is there stays there. -/
theorem has_settle (hm : m.FitsFields p levels nested entry ty) (ht : ty.Sound p) (hf : f ∈ ty.fields)
    (hk : f.kind = .message name) (hr : f.isRepeated = false) : m.settle.has f = m.has f := by
  rw [Message.has, Message.has, get?_settle hm ht hf]
  cases hg : m.get? f with
  | none => rfl
  | some v =>
    obtain ⟨target, rfl⟩ := message_of_fits hk hr (get?_fits hm ht hf hg)
    have hset : f.isSet (.message target) = true := by simp [FieldDef.isSet, FieldDef.isInitial]
    have hw : f.isWritten (.message target) = true := by
      rw [FieldDef.isWritten, hset, Value.payloads]
      rfl
    rw [Option.bind_some, if_pos hw]
    simp only [Option.elim_some, FieldDef.isSet_settle]

end Values

/-- Both fail in the same way, or both give something and the two are related. -/
def Agree (related : α → β → Prop) : Except Error α → Except Error β → Prop
  | .ok a, .ok b => related a b
  | .error e, .error d => e = d
  | _, _ => False

/-- Nodes of a message and of the settled message, reached by the same steps. -/
inductive Node.Settles (p : Pool) : Node → Node → Prop
  | message (ht : ty ∈ p.messages) (hm : p.Fits Pool.maxLevels ty m) : Settles p (.message ty m) (.message ty m.settle)
  | repeated (hv : ∀ v ∈ vs, v.FitsOne p (p.Fits Pool.maxLevels) f) :
    Settles p (.repeated f vs) (.repeated f (settleList vs))
  | enum : Settles p (.enum n ty) (.enum n ty)
  | scalar (h : s = t ∨ s.same t = true) : Settles p (.single (.scalar s)) (.single (.scalar t))
  | absent : Settles p .absent .absent

namespace Node

variable {p : Pool}

theorem ofValue_settles (hv : v.FitsOne p (p.Fits Pool.maxLevels) f) (h : v.Settles w) :
    Settles p (ofValue p f.kind v) (ofValue p f.kind w) := by
  cases v with
  | scalar s =>
    obtain ⟨t, rfl, hst⟩ := h.scalar
    have hs : f.kind.readScalar? s.payload = some s := hv
    unfold ofValue
    cases hk : f.kind with
    | scalar k => exact .scalar hst
    | enum name =>
      rw [hk] at hs
      obtain ⟨n, rfl⟩ := readEnum?_inv hs
      obtain rfl : t = .enum n := by
        rcases hst with he | hst
        · exact he.symm
        · simpa [Scalar.same, eq_comm] using hst
      cases he : p.enum? name with
      | none =>
        simp only [he]
        exact .scalar (.inl rfl)
      | some e =>
        simp only [he]
        exact .enum
    | message name => simp [hk, Kind.readScalar?] at hs
    | map name => simp [hk, Kind.readScalar?] at hs
  | message m =>
    obtain ⟨name, ty, hk, hi, hm⟩ := hv
    obtain rfl := h.message
    simp only [ofValue, hk, hi, Option.map_some, Option.getD_some]
    exact .message (List.mem_of_find?_eq_some hi) hm
  | list vs => exact False.elim hv
  | map entries => exact False.elim hv

theorem field_map (hf : ty.field? name = some f) (hk : f.kind.isMap = true) :
    Node.field p ty m name = .error (.invalidPath (.intoMap name)) := by
  unfold Node.field
  rw [hf]
  cases hc : f.kind <;> simp_all [Kind.isMap]

theorem field_list (hf : ty.field? name = some f) (hk : f.kind.isMap = false) (hr : f.isRepeated = true)
    (hg : m.get f = .list vs) : Node.field p ty m name = .ok (.repeated f vs) := by
  unfold Node.field
  rw [hf]
  cases hc : f.kind <;> simp_all [Kind.isMap]

theorem field_message (hf : ty.field? name = some f) (hk : f.kind = .message target) (hr : f.isRepeated = false) :
    Node.field p ty m name = if m.has f then .ok (ofValue p f.kind (m.get f)) else .ok .absent := by
  unfold Node.field
  rw [hf]
  simp [hk, hr]

theorem field_single (hf : ty.field? name = some f) (hk : f.kind.isMessage = false) (hr : f.isRepeated = false) :
    Node.field p ty m name = .ok (ofValue p f.kind (m.get f)) := by
  unfold Node.field
  rw [hf]
  cases hc : f.kind <;> simp_all [Kind.isMessage]

theorem field_unknown (hf : ty.field? name = none) : Node.field p ty m name = .error (.unknownField name ty.name) := by
  unfold Node.field
  rw [hf]

/-- What a field step gives from a message that fits its type. -/
inductive FieldStep (p : Pool) (ty : MessageDef) (m : Message) (name : String) : Except Error Node → Prop
  | unknown (hf : ty.field? name = none) : FieldStep p ty m name (.error (.unknownField name ty.name))
  | map (hf : ty.field? name = some f) (hk : f.kind.isMap = true) :
    FieldStep p ty m name (.error (.invalidPath (.intoMap name)))
  | list (hf : ty.field? name = some f) (hk : f.kind.isMap = false) (hr : f.isRepeated = true) (hg : m.get f = .list vs)
    (hv : ∀ v ∈ vs, v.FitsOne p (p.Fits Pool.maxLevels) f) : FieldStep p ty m name (.ok (.repeated f vs))
  | message (hf : ty.field? name = some f) (hk : f.kind = .message target) (hr : f.isRepeated = false)
    (hv : (m.get f).FitsOne p (p.Fits Pool.maxLevels) f) :
    FieldStep p ty m name (if m.has f then .ok (ofValue p f.kind (m.get f)) else .ok .absent)
  | single (hf : ty.field? name = some f) (hk : f.kind.isMessage = false) (hr : f.isRepeated = false)
    (hv : (m.get f).FitsOne p (p.Fits Pool.maxLevels) f) : FieldStep p ty m name (.ok (ofValue p f.kind (m.get f)))

theorem field_step (hp : p.Sound) (ht : ty ∈ p.messages) (hm : p.Fits Pool.maxLevels ty m) (name : String) :
    FieldStep p ty m name (Node.field p ty m name) := by
  have hty := hp.messages ty ht
  cases hfield : ty.field? name with
  | none =>
    rw [field_unknown hfield]
    exact .unknown hfield
  | some f =>
    have hf : f ∈ ty.fields := List.mem_of_find?_eq_some hfield
    have hfits : (m.get f).Fits p _ _ f :=
      (Pool.fits_nested hm).get hty (Pool.empty_fits _) (MessageDef.numbered?_of_mem hty hf)
    cases hmap : f.kind.isMap with
    | true =>
      rw [field_map hfield hmap]
      exact .map hfield hmap
    | false =>
      cases hr : f.isRepeated with
      | true =>
        obtain ⟨vs, hvs, hone⟩ := list_of_fits hmap hr hfits
        rw [field_list hfield hmap hr hvs]
        exact .list hfield hmap hr hvs hone
      | false =>
        have hone := one_of_fits hmap hr hfits
        cases hmsg : f.kind.isMessage with
        | false =>
          rw [field_single hfield hmsg hr]
          exact .single hfield hmsg hr hone
        | true =>
          obtain ⟨target, hk⟩ : ∃ target, f.kind = .message target := by
            cases hk : f.kind <;> simp_all [Kind.isMap, Kind.isMessage]
          rw [field_message hfield hk hr]
          exact .message hfield hk hr hone

theorem field_settles (hp : p.Sound) (ht : ty ∈ p.messages) (hm : p.Fits Pool.maxLevels ty m) (name : String) :
    Agree (Settles p) (Node.field p ty m name) (Node.field p ty m.settle name) := by
  have hsettles (f : FieldDef) (hf : ty.field? name = some f) : (m.get f).Settles (m.settle.get f) :=
    get_settle (Pool.fits_nested hm) (hp.messages ty ht) (List.mem_of_find?_eq_some hf)
  have hstep := field_step hp ht hm name
  generalize Node.field p ty m name = x at hstep
  cases hstep with
  | unknown hf =>
    rw [field_unknown hf]
    exact rfl
  | map hf hk =>
    rw [field_map hf hk]
    exact rfl
  | @list f vs hf hk hr hg hv =>
    have hws := (hg ▸ hsettles f hf).list
    rw [field_list hf hk hr hws]
    exact .repeated hv
  | @message f target hf hk hr hv =>
    rw [field_message hf hk hr,
      has_settle (Pool.fits_nested hm) (hp.messages ty ht) (List.mem_of_find?_eq_some hf) hk hr]
    cases m.has f with
    | true => exact ofValue_settles hv (hsettles f hf)
    | false => exact Settles.absent
  | @single f hf hk hr hv =>
    rw [field_single hf hk hr]
    exact ofValue_settles hv (hsettles f hf)

theorem index_settles (hv : ∀ v ∈ vs, v.FitsOne p (p.Fits Pool.maxLevels) f) (i : Int64) :
    Agree (Settles p) (Node.index p f vs i) (Node.index p f (settleList vs) i) := by
  unfold Node.index
  rw [settleList_eq, List.length_map]
  cases position? i vs.length with
  | none => exact rfl
  | some k =>
    simp only [Option.bind_some, List.getElem?_map]
    cases hg : vs[k]? with
    | none => exact rfl
    | some v => exact ofValue_settles (hv v (List.mem_of_getElem? hg)) (.settle v)

end Node

/-- Equal, or zeros of either sign. -/
def Datum.Alike : Datum → Datum → Prop
  | .real a, .real b => a = b ∨ Binary.isZero Binary.double a.toNat ∧ Binary.isZero Binary.double b.toNat
  | a, b => a = b

theorem Datum.Alike.refl (d : Datum) : d.Alike d := by
  cases d <;> simp [Alike]

/-- A zero of thirty-two bits becomes one of sixty-four. -/
theorem isZero_convert (b : UInt32) (h : Binary.isZero Binary.single b.toNat = true) :
    Binary.isZero Binary.double (UInt64.ofNat (Binary.convert Binary.single Binary.double b.toNat)).toNat = true := by
  have hlt := b.toNat_lt
  have hb : b.toNat = 0 ∨ b.toNat = 2 ^ 31 := by
    have hs : Binary.single.signBit = 2 ^ 31 := by decide
    simp only [Binary.isZero, hs, decide_eq_true_eq] at h
    omega
  rcases hb with hb | hb
  · rw [hb]
    decide +kernel
  · rw [hb]
    decide +kernel

theorem Scalar.eq_of_same (h : Scalar.same s t = true) (hd : ∀ b, s ≠ .double b) (hf : ∀ b, s ≠ .float b) : s = t := by
  unfold same at h
  split at h
  · next a _ => exact absurd rfl (hd a)
  · next a _ => exact absurd rfl (hf a)
  · simpa using h

theorem Scalar.datum_alike (h : Scalar.same s t = true) : s.datum.Alike t.datum := by
  cases s with
  | double a =>
    cases t with
    | double b =>
      simp only [Scalar.same, Binary.same, Bool.and_eq_true, Bool.or_eq_true, beq_iff_eq] at h
      exact h.2.imp_left UInt64.toNat_inj.mp
    | _ => simp [Scalar.same] at h
  | float a =>
    cases t with
    | float b =>
      simp only [Scalar.same, Binary.same, Bool.and_eq_true, Bool.or_eq_true, beq_iff_eq] at h
      rcases h.2 with he | ⟨ha, hb⟩
      · rw [UInt32.toNat_inj.mp he]
        exact Datum.Alike.refl _
      · exact .inr ⟨isZero_convert a ha, isZero_convert b hb⟩
    | _ => simp [Scalar.same] at h
  | _ =>
    rw [Scalar.eq_of_same h (by simp) (by simp)]
    exact Datum.Alike.refl _

namespace Agree

variable {R : α → β → Prop} {S : γ → δ → Prop}

theorem bind {x : Except Error α} {y : Except Error β} {f : α → Except Error γ} {g : β → Except Error δ}
    (h : Agree R x y) (hf : ∀ a b, R a b → Agree S (f a) (g b)) : Agree S (x >>= f) (y >>= g) := by
  cases x with
  | error e =>
    cases y with
    | error d => exact h
    | ok b => exact False.elim h
  | ok a =>
    cases y with
    | error d => exact False.elim h
    | ok b => exact hf a b h

theorem of_ok {y : Except Error β} (h : Agree R (.ok a) y) : ∃ b, y = .ok b ∧ R a b := by
  cases y with
  | error d => exact False.elim h
  | ok b => exact ⟨b, rfl, h⟩

theorem refl {R : α → α → Prop} (h : ∀ a, R a a) (x : Except Error α) : Agree R x x := by
  cases x with
  | error e => exact rfl
  | ok a => exact h a

end Agree

namespace Walk

variable {w w' : Walk}

theorem go_nil (w : Walk) (node : Node) : w.go node [] = w.finish node := by
  cases node <;> rfl

/-- Extractions of the same value, up to the sign of a zero; warnings are not compared. -/
def SameValue (x y : Extraction) : Prop := x.value.Alike y.value

theorem finish_settles (h : Node.Settles p a b) : Agree SameValue (w.finish a) (w'.finish b) := by
  cases h with
  | message ht hm =>
    simp only [finish, Agree, SameValue, Message.encode, Message.toFields_settle]
    exact Datum.Alike.refl _
  | repeated hv => exact rfl
  | enum => exact Datum.Alike.refl (.integer _)
  | scalar hst =>
    rcases hst with rfl | hst
    · exact Datum.Alike.refl _
    · exact Scalar.datum_alike hst
  | absent => exact Datum.Alike.refl .null

/-- From nodes that settle the same steps lead to the same value, or to the same error. -/
theorem go_settles (hp : w.pool.Sound) (hw : w'.pool = w.pool) (h : Node.Settles w.pool a b) (steps : List Step) :
    Agree SameValue (w.go a steps) (w'.go b steps) := by
  induction steps generalizing a b with
  | nil =>
    rw [go_nil, go_nil]
    exact finish_settles h
  | cons step steps ih =>
    cases h with
    | message ht hm =>
      cases step with
      | field name =>
        simp only [go, hw]
        exact Agree.bind (Node.field_settles hp ht hm name) (fun _ _ h => ih h)
      | index i => exact rfl
    | repeated hv =>
      cases step with
      | field name => exact rfl
      | index i =>
        simp only [go, hw]
        exact Agree.bind (Node.index_settles hv i) (fun _ _ h => ih h)
    | enum =>
      cases step with
      | field name =>
        cases steps with
        | nil => exact Agree.refl (fun x => Datum.Alike.refl x.value) _
        | cons next steps => exact rfl
      | index i => exact rfl
    | scalar hst => cases step <;> exact rfl
    | absent => cases step <;> exact Datum.Alike.refl .null

end Walk

end WireQuery
