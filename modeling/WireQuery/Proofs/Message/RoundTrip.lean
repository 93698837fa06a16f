import WireQuery.Proofs.Message.Reread

namespace WireQuery

section Messages

variable {p : Pool} {levels : Nat} {nested entry : Fitting} {merge mergeEntry : Pool.Nested} {ty : MessageDef}
  {f : FieldDef} {n : Nat}

/-- A run of payloads sets its field to what they build up from the field's value. -/
theorem foldlM_known (hn : ty.numbered? n = some f) (x : Wire.Payload) (ps : List Wire.Payload) (m : Message) :
    ((x :: ps).map (n, ·)).foldlM (p.mergeField levels merge mergeEntry ty) m =
      ((x :: ps).foldlM (p.mergeValue levels merge mergeEntry f) (m.get f)).map (m.set f) := by
  have hstep (m : Message) (x : Wire.Payload) : p.mergeField levels merge mergeEntry ty m (n, x) =
      (p.mergeValue levels merge mergeEntry f (m.get f) x).map (m.set f) := by
    simp [Pool.mergeField, hn]
  induction ps generalizing x m with
  | nil => simp [hstep]
  | cons y ps ih =>
    rw [List.map_cons, List.foldlM_cons, hstep, List.foldlM_cons]
    cases p.mergeValue levels merge mergeEntry f (m.get f) x with
    | none => rfl
    | some v =>
      have hrest := ih y (m.set f v)
      rw [Message.get_set, show (m.set f v).set f = m.set f from funext (m.set_set f v)] at hrest
      exact hrest

theorem foldlM_unknown (hn : ty.numbered? n = none) {ps : List Wire.Payload} (hd : ∀ x ∈ ps, x.groupDepth ≤ levels)
    (qs : List Wire.Payload) (slots : List (FieldDef × Value)) (extras : List (Nat × Extra)) :
    (ps.map (n, ·)).foldlM (p.mergeField levels merge mergeEntry ty) ⟨slots, Message.putExtra n (.unknown qs) extras⟩ =
      some ⟨slots, Message.putExtra n (.unknown (qs ++ ps)) extras⟩ := by
  induction ps generalizing qs with
  | nil => simp
  | cons x ps ih =>
    have hstep : p.mergeField levels merge mergeEntry ty ⟨slots, Message.putExtra n (.unknown qs) extras⟩ (n, x) =
        some ⟨slots, Message.putExtra n (.unknown (qs ++ [x])) extras⟩ := by
      simp [Pool.mergeField, hn, hd x List.mem_cons_self, Message.addUnknown, Message.extraIn?_putExtra_self,
        Message.putExtra_putExtra]
    rw [List.map_cons, List.foldlM_cons, hstep]
    simpa using ih (fun y hy => hd y (List.mem_cons_of_mem _ hy)) (qs ++ [x])

theorem get_of_fresh {m : Message} (hx : f.extension = false) (h : ∀ s ∈ m.slots, s.1.number ≠ f.number) :
    m.get f = f.initial := by
  simp [Message.get, Message.get?, hx, Message.slotIn?_eq_none h]

/-- Whether the slot of a field can stand before that of another: by its number, and not in one oneof with it. -/
def FieldDef.Before (f g : FieldDef) : Prop := f.number < g.number ∧ (g.oneof = none ∨ f.oneof ≠ g.oneof)

theorem set_last (hx : f.extension = false) (h : ∀ s ∈ slots, FieldDef.Before s.1 f) :
    (⟨slots, extras⟩ : Message).set f v = ⟨slots ++ [(f, v)], extras⟩ := by
  rw [Message.set_slots _ hx, Message.kept_all (fun s hs => (h s hs).2), Message.putSlot_last (fun s hs => (h s hs).1)]

/-- The fields of a value that leaves any set its field to what the value settles to. -/
theorem reread_field (hp : p.Sound) (ht : ty.Sound p) (hm : p.Rereads levels merge nested)
    (he : p.RereadsEntry levels mergeEntry entry) (hn : ty.numbered? f.number = some f)
    (hv : v.Fits p nested entry f) (hw : v.within levels = true) (hset : f.isWritten v = true)
    (hl : Wire.Short ((v.payloads f).map (f.number, ·))) {m : Message} (hi : m.get f = f.initial) :
    ((v.payloads f).map (f.number, ·)).foldlM (p.mergeField levels merge mergeEntry ty) m = some (m.set f v.settle) ∧
      Wire.Readable p.framing (some ty) ((v.payloads f).map (f.number, ·)) := by
  have hf := MessageDef.linked_of_numbered? ht hn
  obtain ⟨hread, hr⟩ := reread_value hp hm he hf hn hv hw
    (fun x hx => hl (f.number, x) (List.mem_map.mpr ⟨x, hx, rfl⟩))
  refine ⟨?_, Wire.readable_run hf.number hr⟩
  cases hps : v.payloads f with
  | nil => simp [FieldDef.isWritten, hps] at hset
  | cons x ps => rw [foldlM_known hn, hi, ← hps, hread, Option.map_some]

theorem slotFields_written (h : f.isWritten v = true) (slots : List (FieldDef × Value)) :
    slotFields ((f, v) :: slots) = (v.payloads f).map (f.number, ·) ++ slotFields slots := by
  rw [FieldDef.isWritten, Bool.and_eq_true] at h
  rw [slotFields, if_pos h.1]

theorem slotFields_not_written (h : f.isWritten v = false) (slots : List (FieldDef × Value)) :
    slotFields ((f, v) :: slots) = slotFields slots := by
  rw [slotFields, FieldDef.fields_of_not_written h, List.nil_append]

theorem reread_slots (hp : p.Sound) (ht : ty.Sound p) (hm : p.Rereads levels merge nested)
    (he : p.RereadsEntry levels mergeEntry entry) {slots : List (FieldDef × Value)}
    (hs : ∀ s ∈ slots, ty.numbered? s.1.number = some s.1 ∧ s.1.extension = false ∧ s.2.Fits p nested entry s.1)
    (ho : slots.Pairwise (fun s t => s.1.Before t.1)) (hw : slotsWithin levels slots = true)
    (hl : Wire.Short (slotFields slots)) (done : List (FieldDef × Value))
    (hd : ∀ d ∈ done, ∀ s ∈ slots, d.1.Before s.1) :
    (slotFields slots).foldlM (p.mergeField levels merge mergeEntry ty) ⟨done, []⟩ =
      some ⟨done ++ settleSlots slots, []⟩ ∧ Wire.Readable p.framing (some ty) (slotFields slots) := by
  induction slots generalizing done with
  | nil => simp [slotFields, settleSlots, Wire.Readable]
  | cons s slots ih =>
    obtain ⟨f, v⟩ := s
    obtain ⟨hbefore, ho⟩ := List.pairwise_cons.mp ho
    obtain ⟨hn, hx, hv⟩ := hs (f, v) List.mem_cons_self
    have hrest (s) (hmem : s ∈ slots) := hs s (List.mem_cons_of_mem _ hmem)
    simp only [slotsWithin, Bool.and_eq_true] at hw
    cases hset : f.isWritten v with
    | false =>
      rw [slotFields_not_written hset] at hl ⊢
      rw [settleSlots, if_neg (by simp [hset])]
      exact ih hrest ho hw.2 hl done (fun d hmem s hs => hd d hmem s (List.mem_cons_of_mem _ hs))
    | true =>
      rw [slotFields_written hset] at hl ⊢
      have hdf (d) (hmem : d ∈ done) : d.1.Before f := hd d hmem (f, v) List.mem_cons_self
      have hfresh : (⟨done, []⟩ : Message).get f = f.initial :=
        get_of_fresh hx (fun d hmem => Nat.ne_of_lt (hdf d hmem).1)
      obtain ⟨hfield, hr⟩ := reread_field hp ht hm he hn hv hw.1 hset hl.left hfresh
      have hnext : ∀ d ∈ done ++ [(f, v.settle)], ∀ s ∈ slots, d.1.Before s.1 := by
        intro d hmem s hs
        rcases List.mem_append.mp hmem with hmem | hmem
        · exact hd d hmem s (List.mem_cons_of_mem _ hs)
        · rw [List.mem_singleton.mp hmem]
          exact hbefore s hs
      obtain ⟨hslots, hrs⟩ := ih hrest ho hw.2 hl.right _ hnext
      refine ⟨?_, hr.append hrs⟩
      rw [List.foldlM_append, hfield, set_last hx hdf, settleSlots, if_pos hset]
      simpa using hslots

theorem get_of_fresh_extra {m : Message} (hx : f.extension = true) (h : ∀ x ∈ m.extras, x.1 ≠ f.number) :
    m.get f = f.initial := by
  simp [Message.get, Message.get?, hx, Message.extraIn?_eq_none h]

theorem extraFields_written (h : f.isWritten v = true) (extras : List (Nat × Extra)) :
    extraFields ((n, .extension f v) :: extras) = (v.payloads f).map (f.number, ·) ++ extraFields extras := by
  rw [FieldDef.isWritten, Bool.and_eq_true] at h
  rw [extraFields, if_pos h.1]

theorem extraFields_not_written (h : f.isWritten v = false) (extras : List (Nat × Extra)) :
    extraFields ((n, .extension f v) :: extras) = extraFields extras := by
  rw [extraFields, FieldDef.fields_of_not_written h, List.nil_append]

theorem foldlM_fresh_unknown (hn : ty.numbered? n = none) {ps : List Wire.Payload} (hne : ps ≠ [])
    (hd : ∀ x ∈ ps, x.groupDepth ≤ levels) {slots : List (FieldDef × Value)} {done : List (Nat × Extra)}
    (hl : ∀ d ∈ done, d.1 < n) :
    (ps.map (n, ·)).foldlM (p.mergeField levels merge mergeEntry ty) ⟨slots, done⟩ =
      some ⟨slots, done ++ [(n, .unknown ps)]⟩ := by
  cases ps with
  | nil => contradiction
  | cons x ps =>
    have hstep : p.mergeField levels merge mergeEntry ty ⟨slots, done⟩ (n, x) =
        some ⟨slots, Message.putExtra n (.unknown [x]) done⟩ := by
      simp [Pool.mergeField, hn, hd x List.mem_cons_self, Message.addUnknown,
        Message.extraIn?_eq_none (fun d hmem => Nat.ne_of_lt (hl d hmem))]
    rw [List.map_cons, List.foldlM_cons, hstep, ← Message.putExtra_last hl]
    exact foldlM_unknown hn (fun y hy => hd y (List.mem_cons_of_mem _ hy)) [x] slots done

theorem reread_extras (hp : p.Sound) (ht : ty.Sound p) (hm : p.Rereads levels merge nested)
    (he : p.RereadsEntry levels mergeEntry entry) (slots : List (FieldDef × Value)) {extras : List (Nat × Extra)}
    (hs : ∀ x ∈ extras, x.2.Fits p levels nested entry ty x.1) (ho : extras.Pairwise (·.1 < ·.1))
    (hw : extrasWithin levels extras = true) (hl : Wire.Short (extraFields extras)) (done : List (Nat × Extra))
    (hd : ∀ d ∈ done, ∀ x ∈ extras, d.1 < x.1) :
    (extraFields extras).foldlM (p.mergeField levels merge mergeEntry ty) ⟨slots, done⟩ =
      some ⟨slots, done ++ settleExtras extras⟩ ∧ Wire.Readable p.framing (some ty) (extraFields extras) := by
  induction extras generalizing done with
  | nil => simp [extraFields, settleExtras, Wire.Readable]
  | cons x extras ih =>
    obtain ⟨n, e⟩ := x
    obtain ⟨hbefore, hasc⟩ := List.pairwise_cons.mp ho
    have hfits := hs (n, e) List.mem_cons_self
    have hrest (x) (hmem : x ∈ extras) := hs x (List.mem_cons_of_mem _ hmem)
    have hdn (d) (hmem : d ∈ done) : d.1 < n := hd d hmem (n, e) List.mem_cons_self
    have hnext (e' : Extra) : ∀ d ∈ done ++ [(n, e')], ∀ x ∈ extras, d.1 < x.1 := by
      intro d hmem x hx
      rcases List.mem_append.mp hmem with hmem | hmem
      · exact hd d hmem x (List.mem_cons_of_mem _ hx)
      · rw [List.mem_singleton.mp hmem]
        exact hbefore x hx
    cases e with
    | extension f v =>
      obtain ⟨hn, hx, hv⟩ := hfits
      obtain ⟨-, rfl⟩ := MessageDef.numbered?_mem hn
      simp only [extrasWithin, Bool.and_eq_true] at hw
      cases hset : f.isWritten v with
      | false =>
        rw [extraFields_not_written hset] at hl ⊢
        rw [settleExtras, if_neg (by simp [hset])]
        exact ih hrest hasc hw.2 hl done (fun d hmem x hx => hd d hmem x (List.mem_cons_of_mem _ hx))
      | true =>
        rw [extraFields_written hset] at hl ⊢
        have hfresh : (⟨slots, done⟩ : Message).get f = f.initial :=
          get_of_fresh_extra hx (fun d hmem => Nat.ne_of_lt (hdn d hmem))
        obtain ⟨hfield, hr⟩ := reread_field hp ht hm he hn hv hw.1 hset hl.left hfresh
        obtain ⟨hextras, hrs⟩ := ih hrest hasc hw.2 hl.right _ (hnext (.extension f v.settle))
        have hput : (⟨slots, done⟩ : Message).set f v.settle = ⟨slots, done ++ [(f.number, .extension f v.settle)]⟩ := by
          simp [Message.set, hx, Message.putExtra_last hdn]
        refine ⟨?_, hr.append hrs⟩
        rw [List.foldlM_append, hfield, hput, settleExtras, if_pos hset]
        simpa using hextras
    | unknown ps =>
      obtain ⟨hn, hne, hb, hps⟩ := hfits
      simp only [extrasWithin] at hw
      rw [extraFields] at hl ⊢
      obtain ⟨hextras, hr⟩ := ih hrest hasc hw hl.right _ (hnext (.unknown ps))
      refine ⟨?_, (Wire.readable_run hb (fun x hx => (hps x hx).1)).append hr⟩
      rw [List.foldlM_append, foldlM_fresh_unknown hn hne (fun x hx => (hps x hx).2) hdn, settleExtras]
      simpa using hextras

theorem unset_eq_initial (hv : v.Fits p nested entry f) (h : f.isSet v = false) : f.unset v = f.initial := by
  simp only [FieldDef.isSet, Bool.or_eq_false_iff, Bool.not_eq_false'] at h
  cases v with
  | scalar s =>
    have hk : f.kind.isMessage = false := by
      cases hk : f.kind <;> simp_all [Value.Fits, Value.FitsOne, Kind.readScalar?, Kind.isMessage]
    exact (FieldDef.initial_scalar hv.1 hk).symm
  | message m => simp [FieldDef.isInitial] at h
  | list vs =>
    obtain ⟨hr, hk, -⟩ := hv
    have hvs : vs = [] := List.isEmpty_iff.mp h.2
    rw [FieldDef.initial_list hr hk, hvs]
    rfl
  | map entries =>
    obtain ⟨name, target, hk, -⟩ := hv
    have hes : entries = [] := List.isEmpty_iff.mp h.2
    rw [FieldDef.initial_map hk, hes]
    rfl

/-- What a part is once its entry has been written and read again. -/
def settlePart (f : FieldDef) (v : Value) : Value := if f.isSet v then v.settle else f.unset v

/-- A part that leaves nothing is read as if it were not there. -/
theorem settlePart_not_written (hp : p.Sound) (hm : p.Rereads levels merge nested)
    (he : p.RereadsEntry levels mergeEntry entry) (hf : f.Sound p) (hn : ty.numbered? f.number = some f)
    (hv : v.Fits p nested entry f) (hw : v.within levels = true) (h : f.isWritten v = false) :
    settlePart f v = f.initial := by
  unfold settlePart
  cases hset : f.isSet v with
  | false => exact unset_eq_initial hv hset
  | true =>
    have hnil : v.payloads f = [] := by simpa [FieldDef.isWritten, hset] using h
    have hread := (reread_value hp hm he hf hn hv hw (by simp [hnil])).1
    rw [hnil] at hread
    exact (Option.some.inj hread).symm

theorem slotIn?_between (h : ∀ s ∈ before, s.1.number ≠ f.number) :
    Message.slotIn? f.number (before ++ (f, v) :: after) = some v := by
  induction before with
  | nil => simp [Message.slotIn?]
  | cons s before ih =>
    obtain ⟨g, w⟩ := s
    rw [List.cons_append, Message.slotIn?, if_neg (h (g, w) List.mem_cons_self)]
    exact ih (fun s hs => h s (List.mem_cons_of_mem _ hs))

theorem reread_parts (hp : p.Sound) (ht : ty.Sound p) (hm : p.Rereads levels merge nested)
    (he : p.RereadsEntry levels mergeEntry entry) {slots : List (FieldDef × Value)}
    (hs : ∀ s ∈ slots, ty.numbered? s.1.number = some s.1 ∧ s.1.extension = false ∧ s.2.Fits p nested entry s.1)
    (ho : ∀ s ∈ slots, s.1.oneof = none) (ha : Message.Ascending slots) (hw : slotsWithin levels slots = true)
    (hl : Wire.Short (slotFields slots)) (done : List (FieldDef × Value))
    (hd : ∀ d ∈ done, ∀ s ∈ slots, d.1.number < s.1.number) :
    (slotFields slots).foldlM (p.mergeField levels merge mergeEntry ty)
        ⟨done ++ slots.map (fun s => (s.1, s.1.initial)), []⟩ =
      some ⟨done ++ settleParts slots, []⟩ ∧ Wire.Readable p.framing (some ty) (slotFields slots) := by
  induction slots generalizing done with
  | nil => simp [slotFields, settleParts, Wire.Readable]
  | cons s slots ih =>
    obtain ⟨f, v⟩ := s
    obtain ⟨hbefore, hasc⟩ := List.pairwise_cons.mp ha
    obtain ⟨hn, hx, hv⟩ := hs (f, v) List.mem_cons_self
    have hf := MessageDef.linked_of_numbered? ht hn
    have hrest (s) (hmem : s ∈ slots) := hs s (List.mem_cons_of_mem _ hmem)
    have horest (s) (hmem : s ∈ slots) := ho s (List.mem_cons_of_mem _ hmem)
    have hdf (d) (hmem : d ∈ done) : d.1.number < f.number := hd d hmem (f, v) List.mem_cons_self
    simp only [slotsWithin, Bool.and_eq_true] at hw
    have hnext (w : Value) : ∀ d ∈ done ++ [(f, w)], ∀ s ∈ slots, d.1.number < s.1.number := by
      intro d hmem s hs
      rcases List.mem_append.mp hmem with hmem | hmem
      · exact hd d hmem s (List.mem_cons_of_mem _ hs)
      · rw [List.mem_singleton.mp hmem]
        exact hbefore s hs
    have hsettle : settleParts ((f, v) :: slots) = (f, settlePart f v) :: settleParts slots := by
      rw [settleParts, settlePart]
    rw [hsettle, List.map_cons]
    cases hset : f.isWritten v with
    | false =>
      rw [slotFields_not_written hset] at hl ⊢
      rw [settlePart_not_written hp hm he hf hn hv hw.1 hset]
      simpa using ih hrest horest hasc hw.2 hl _ (hnext f.initial)
    | true =>
      rw [slotFields_written hset] at hl ⊢
      have hget : (⟨done ++ (f, f.initial) :: slots.map (fun s => (s.1, s.1.initial)), []⟩ : Message).get f =
          f.initial := by
        have hx : f.extension = false := hx
        simp [Message.get, Message.get?, hx, slotIn?_between (fun d hmem => Nat.ne_of_lt (hdf d hmem))]
      obtain ⟨hfield, hr⟩ := reread_field hp ht hm he hn hv hw.1 hset hl.left hget
      obtain ⟨hparts, hrs⟩ := ih hrest horest hasc hw.2 hl.right _ (hnext v.settle)
      refine ⟨?_, hr.append hrs⟩
      have hpart : settlePart f v = v.settle := by
        rw [FieldDef.isWritten, Bool.and_eq_true] at hset
        rw [settlePart, if_pos hset.1]
      rw [List.foldlM_append, hfield, Message.set_outside_oneof _ hx (ho (f, v) List.mem_cons_self), hpart]
      simp only [Message.putSlot_between hdf]
      simpa using hparts

theorem toFields_eq (m : Message) : m.toFields = slotFields m.slots ++ extraFields m.extras := by
  obtain ⟨slots, extras⟩ := m
  rw [Message.toFields]

theorem within_iff (m : Message) :
    m.within levels = true ↔ slotsWithin levels m.slots = true ∧ extrasWithin levels m.extras = true := by
  obtain ⟨slots, extras⟩ := m
  rw [Message.within, Bool.and_eq_true]

theorem number_of_slotFields (h : x ∈ slotFields slots) : ∃ s ∈ slots, s.1.number = x.1 := by
  induction slots with
  | nil => contradiction
  | cons s slots ih =>
    obtain ⟨f, v⟩ := s
    rw [slotFields] at h
    rcases List.mem_append.mp h with h | h
    · split at h
      · obtain ⟨y, _, rfl⟩ := List.mem_map.mp h
        exact ⟨(f, v), List.mem_cons_self, rfl⟩
      · contradiction
    · obtain ⟨s, hs, hn⟩ := ih h
      exact ⟨s, List.mem_cons_of_mem _ hs, hn⟩

theorem number_of_extraFields {extras : List (Nat × Extra)} (he : ∀ y ∈ extras, y.2.Fits p levels nested entry ty y.1)
    (h : x ∈ extraFields extras) : ∃ y ∈ extras, y.1 = x.1 := by
  induction extras with
  | nil => contradiction
  | cons y extras ih =>
    have hrest (y) (hmem : y ∈ extras) := he y (List.mem_cons_of_mem _ hmem)
    obtain ⟨n, e⟩ := y
    cases e with
    | extension f v =>
      rw [extraFields] at h
      rcases List.mem_append.mp h with h | h
      · split at h
        · obtain ⟨z, _, rfl⟩ := List.mem_map.mp h
          exact ⟨_, List.mem_cons_self, (MessageDef.numbered?_mem (he _ List.mem_cons_self).1).2.symm⟩
        · contradiction
      · obtain ⟨y, hy, hn⟩ := ih hrest h
        exact ⟨y, List.mem_cons_of_mem _ hy, hn⟩
    | unknown ps =>
      rw [extraFields] at h
      rcases List.mem_append.mp h with h | h
      · obtain ⟨z, _, rfl⟩ := List.mem_map.mp h
        exact ⟨_, List.mem_cons_self, rfl⟩
      · obtain ⟨y, hy, hn⟩ := ih hrest h
        exact ⟨y, List.mem_cons_of_mem _ hy, hn⟩

theorem mergeParts_rereads (hp : p.Sound) (hm : p.Rereads levels merge nested) :
    p.RereadsEntry levels (p.mergeParts levels merge) (p.FitsEntry levels nested) := by
  intro ty e ht ⟨hfits, hfields, hnumbers⟩ hw hl
  have hl := Wire.short_of_length hl
  rw [toFields_eq] at hl ⊢
  rw [within_iff] at hw
  have hnone : p.RereadsEntry levels (fun _ _ _ => none) (fun _ _ => False) := by
    intro ty e _ h
    contradiction
  have hlinked := MessageDef.entryPart_linked ht
  have hmem (s) (hs : s ∈ e.slots) : s.1 ∈ ty.entryPart.fields := hfields ▸ List.mem_map.mpr ⟨s, hs, rfl⟩
  obtain ⟨hslots, hrs⟩ := reread_parts hp hlinked hm hnone hfits.slots
    (fun s hs => (MessageDef.mem_entryPart (hmem s hs)).1) hfits.ascending hw.1 hl.left [] (by simp)
  obtain ⟨hextras, hrx⟩ := reread_extras hp hlinked hm hnone (settleParts e.slots) hfits.extras
    hfits.ascendingExtras hw.2 hl.right [] (by simp)
  have hstart : ty.entryStart = ⟨e.slots.map (fun s => (s.1, s.1.initial)), []⟩ := by
    rw [MessageDef.entryStart, ← hfields, List.map_map]
    rfl
  refine ⟨?_, hrs.append hrx, ?_⟩
  · rw [Pool.mergeParts, List.foldlM_append, hstart]
    rw [List.nil_append, List.nil_append] at hslots
    rw [hslots]
    simpa [Message.settleEntry] using hextras
  · intro x hx
    rcases List.mem_append.mp hx with hx | hx
    · obtain ⟨s, hs, hn⟩ := number_of_slotFields hx
      exact hn ▸ (MessageDef.mem_entryPart (hmem s hs)).2
    · obtain ⟨y, hy, hn⟩ := number_of_extraFields hfits.extras hx
      exact hn ▸ hnumbers y hy

theorem Message.FitsFields.before {m : Message} (h : m.FitsFields p levels nested entry ty) :
    m.slots.Pairwise (fun s t => s.1.Before t.1) := by
  apply h.ascending.imp_of_mem
  intro s t hs ht hlt
  exact ⟨hlt, (h.oneofs t ht s hs (Nat.ne_of_gt hlt)).imp_right Ne.symm⟩

/-- A message that fits comes back from its own fields, settled. -/
theorem mergeFields_rereads (hp : p.Sound) (ht : ty.Sound p) (hm : p.Rereads levels merge nested)
    (hfits : p.FitsIn levels nested ty m) (hw : m.within levels = true) (hl : (Wire.write m.toFields).length < 2 ^ 64) :
    p.mergeFields levels merge ty {} m.toFields = some m.settle ∧
      Wire.Readable p.framing (some ty) m.toFields := by
  have hl := Wire.short_of_length hl
  rw [toFields_eq] at hl ⊢
  rw [within_iff] at hw
  have he := mergeParts_rereads hp hm
  obtain ⟨hslots, hrs⟩ := reread_slots hp ht hm he hfits.slots hfits.before hw.1 hl.left [] (by simp)
  obtain ⟨hextras, hrx⟩ := reread_extras hp ht hm he (settleSlots m.slots) hfits.extras
    hfits.ascendingExtras hw.2 hl.right [] (by simp)
  refine ⟨?_, hrs.append hrx⟩
  rw [List.nil_append] at hslots hextras
  rw [Pool.mergeFields, List.foldlM_append, hslots, show m.settle = ⟨settleSlots m.slots, settleExtras m.extras⟩ by
    obtain ⟨slots, extras⟩ := m
    rw [Message.settle]]
  exact hextras

end Messages

namespace Pool

variable {p : Pool} {m : Message} {ty : MessageDef}

theorem merge_rereads (hp : p.Sound) (levels : Nat) (ty : MessageDef) (m : Message) (ht : ty.Sound p)
    (hfits : p.Fits levels ty m) (hw : m.within levels = true) (hl : (Wire.write m.toFields).length < 2 ^ 64) :
    p.merge levels ty {} m.toFields = some m.settle ∧ Wire.Readable p.framing (some ty) m.toFields := by
  induction levels generalizing ty m with
  | zero =>
    have hnone : p.Rereads 0 (fun _ _ _ => none) (fun _ m => m = {}) := by
      intro ty m _ _ hw
      simp [Value.within] at hw
    exact mergeFields_rereads hp ht hnone hfits hw hl
  | succ levels ih =>
    have hm : p.Rereads (levels + 1) (p.merge levels) (p.Fits levels) := by
      intro ty m ht hfits hw hl
      rw [Value.within, Bool.and_eq_true] at hw
      exact ih ty m ht hfits hw.2 hl
    exact mergeFields_rereads hp ht hm hfits hw hl

/-- A message that fits its type is read from its own bytes. -/
theorem read?_encode (hp : p.Sound) (ht : ty.Sound p) (hfits : p.Fits maxLevels ty m) (hw : m.within maxLevels = true)
    (hl : m.encode.length < 2 ^ 64) : p.read? ty m.encode = some m.settle := by
  obtain ⟨hmerge, hr⟩ := merge_rereads hp maxLevels ty m ht hfits hw hl
  rw [read?, readFields, Message.encode, Wire.read_write hr hl]
  exact hmerge

end Pool

end WireQuery
