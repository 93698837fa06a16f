import WireQuery.Message.Writer
import WireQuery.Proofs.Message.Slots

/-!
What is left of a message once it has been written and read again: values that leave nothing on the wire are gone.
-/

namespace WireQuery

namespace FieldDef

/-- Whether a value of a field leaves anything on the wire. -/
def isWritten (f : FieldDef) (v : Value) : Bool := f.isSet v && !(v.payloads f).isEmpty

/-- What an unset part of an entry is read as. -/
def unset (f : FieldDef) : Value → Value
  | .scalar _ => .scalar f.initialScalar
  | v => v

end FieldDef

mutual

def Value.settle : Value → Value
  | .scalar s => .scalar s
  | .message m => .message m.settle
  | .list vs => .list (settleList vs)
  | .map entries => .map (settleEntries entries)

def settleList : List Value → List Value
  | [] => []
  | v :: vs => v.settle :: settleList vs

def Message.settle : Message → Message
  | ⟨slots, extras⟩ => ⟨settleSlots slots, settleExtras extras⟩

def settleSlots : List (FieldDef × Value) → List (FieldDef × Value)
  | [] => []
  | (f, v) :: slots => if f.isWritten v then (f, v.settle) :: settleSlots slots else settleSlots slots

def settleExtras : List (Nat × Extra) → List (Nat × Extra)
  | [] => []
  | (n, .extension f v) :: extras =>
    if f.isWritten v then (n, .extension f v.settle) :: settleExtras extras else settleExtras extras
  | (n, .unknown ps) :: extras => (n, .unknown ps) :: settleExtras extras

/-- An entry keeps both its parts. -/
def settleEntries : List Message → List Message
  | [] => []
  | ⟨slots, extras⟩ :: es => ⟨settleParts slots, settleExtras extras⟩ :: settleEntries es

def settleParts : List (FieldDef × Value) → List (FieldDef × Value)
  | [] => []
  | (f, v) :: slots => (f, if f.isSet v then v.settle else f.unset v) :: settleParts slots

end

/-- An entry of a map once it has been written and read again. -/
def Message.settleEntry (e : Message) : Message := ⟨settleParts e.slots, settleExtras e.extras⟩

theorem settleList_eq (vs : List Value) : settleList vs = vs.map Value.settle := by
  induction vs with
  | nil => rfl
  | cons v vs ih => rw [settleList, ih, List.map_cons]

theorem settleEntries_eq (es : List Message) : settleEntries es = es.map Message.settleEntry := by
  induction es with
  | nil => rfl
  | cons e es ih =>
    obtain ⟨slots, extras⟩ := e
    rw [settleEntries, ih, List.map_cons]
    rfl

/-- Only nan is not the same as itself, and it is the same as nothing. -/
theorem Scalar.same_right (h : Scalar.same s t = true) : t.same t = true := by
  cases t with
  | double b => cases s <;> simp_all [Scalar.same, Binary.same]
  | float b => cases s <;> simp_all [Scalar.same, Binary.same]
  | _ => simp [Scalar.same]

namespace FieldDef

theorem fields_of_not_written {f : FieldDef} (h : f.isWritten v = false) :
    (if f.isSet v then (v.payloads f).map (f.number, ·) else []) = [] := by
  unfold isWritten at h
  split
  · next hs => simpa [hs] using h
  · rfl

theorem isSet_settle (f : FieldDef) (v : Value) : f.isSet v.settle = f.isSet v := by
  unfold isSet
  cases v with
  | scalar s => rw [Value.settle]
  | message m => rw [Value.settle]; rfl
  | list vs => cases vs <;> simp [Value.settle, settleList, isInitial]
  | map es =>
    rw [Value.settle, settleEntries_eq]
    cases es <;> simp [isInitial]

theorem isSet_unset {f : FieldDef} (h : f.isSet v = false) : f.isSet (f.unset v) = false := by
  cases v with
  | scalar s =>
    simp only [isSet, isInitial, unset, Bool.or_eq_false_iff, Bool.not_eq_false'] at h ⊢
    exact ⟨h.1, Scalar.same_right h.2⟩
  | _ => exact h

end FieldDef

mutual

theorem Value.payloads_settle (f : FieldDef) (v : Value) : v.settle.payloads f = v.payloads f := by
  match v with
  | .scalar s => rw [Value.settle]
  | .message m => rw [Value.settle, Value.payloads, Value.payloads, m.toFields_settle]
  | .list vs => rw [Value.settle, Value.payloads, Value.payloads, elementPayloads_settle f vs]
  | .map es => rw [Value.settle, Value.payloads, Value.payloads, entryPayloads_settle es]

theorem elementPayloads_settle (f : FieldDef) (vs : List Value) :
    elementPayloads f (settleList vs) = elementPayloads f vs := by
  match vs with
  | [] => rfl
  | v :: vs => rw [settleList, elementPayloads, elementPayloads, v.payloads_settle f, elementPayloads_settle f vs]

theorem entryPayloads_settle (es : List Message) : entryPayloads (settleEntries es) = entryPayloads es := by
  match es with
  | [] => rfl
  | ⟨slots, extras⟩ :: es =>
    rw [settleEntries, entryPayloads, entryPayloads, entryPayloads_settle es, Message.toFields, Message.toFields,
      slotFields_settleParts slots, extraFields_settle extras]

/-- A message is written as before. -/
theorem Message.toFields_settle (m : Message) : m.settle.toFields = m.toFields := by
  match m with
  | ⟨slots, extras⟩ =>
    rw [Message.settle, Message.toFields, Message.toFields, slotFields_settle slots, extraFields_settle extras]

theorem slotFields_settle (slots : List (FieldDef × Value)) : slotFields (settleSlots slots) = slotFields slots := by
  match slots with
  | [] => rfl
  | (f, v) :: slots =>
    have hv := v.payloads_settle f
    have hs := slotFields_settle slots
    rw [settleSlots, slotFields]
    split
    · rw [slotFields, f.isSet_settle, hv, hs]
    · next hw => rw [FieldDef.fields_of_not_written (by simpa using hw), hs, List.nil_append]

theorem extraFields_settle (extras : List (Nat × Extra)) : extraFields (settleExtras extras) = extraFields extras := by
  match extras with
  | [] => rfl
  | (n, .extension f v) :: extras =>
    have hv := v.payloads_settle f
    have hx := extraFields_settle extras
    rw [settleExtras, extraFields]
    split
    · rw [extraFields, f.isSet_settle, hv, hx]
    · next hw => rw [FieldDef.fields_of_not_written (by simpa using hw), hx, List.nil_append]
  | (n, .unknown ps) :: extras => rw [settleExtras, extraFields, extraFields, extraFields_settle extras]

theorem slotFields_settleParts (slots : List (FieldDef × Value)) :
    slotFields (settleParts slots) = slotFields slots := by
  match slots with
  | [] => rfl
  | (f, v) :: slots =>
    have hv := v.payloads_settle f
    have hs := slotFields_settleParts slots
    rw [settleParts, slotFields, slotFields, hs]
    cases hset : f.isSet v with
    | true => simp only [↓reduceIte, f.isSet_settle, hset, hv]
    | false => simp [FieldDef.isSet_unset hset]

end

end WireQuery
