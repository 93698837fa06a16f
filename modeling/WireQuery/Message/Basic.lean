import WireQuery.Schema.Pool

namespace WireQuery

mutual

inductive Value where
  | scalar (s : Scalar)
  | message (m : Message)
  | list (vs : List Value)
  /-- One entry message for each key. -/
  | map (entries : List Message)

structure Message where
  /-- By ascending number. -/
  slots : List (FieldDef × Value) := []
  /-- Extensions and fields without a definition, by ascending number. -/
  extras : List (Nat × Extra) := []

inductive Extra where
  | extension (f : FieldDef) (v : Value)
  | unknown (payloads : List Wire.Payload)

end

namespace FieldDef

/-- What a scalar or enum field holds before it is set. -/
def initialScalar (f : FieldDef) : Scalar :=
  match f.kind with
  | .scalar k => f.default.getD k.zero
  | _ => f.default.getD (.enum 0)

/-- The value of a field that is not set. -/
def initial (f : FieldDef) : Value :=
  match f.kind with
  | .map _ => .map []
  | .message _ => if f.isRepeated then .list [] else .message {}
  | _ => if f.isRepeated then .list [] else .scalar f.initialScalar

def isInitial (f : FieldDef) : Value → Bool
  | .scalar s => s.same f.initialScalar
  | .message _ => false
  | .list vs => vs.isEmpty
  | .map entries => entries.isEmpty

/-- Whether a value that a field holds counts as set. -/
def isSet (f : FieldDef) (v : Value) : Bool := f.presence || !f.isInitial v

end FieldDef

namespace Message

def slotIn? (number : Nat) : List (FieldDef × Value) → Option Value
  | [] => none
  | (f, v) :: slots => if f.number = number then some v else slotIn? number slots

def putSlot (f : FieldDef) (v : Value) : List (FieldDef × Value) → List (FieldDef × Value)
  | [] => [(f, v)]
  | (g, w) :: slots =>
    if f.number < g.number then (f, v) :: (g, w) :: slots
    else if f.number = g.number then (f, v) :: slots
    else (g, w) :: putSlot f v slots

theorem slotIn?_putSlot_self (f : FieldDef) (v : Value) (slots : List (FieldDef × Value)) :
    slotIn? f.number (putSlot f v slots) = some v := by
  induction slots with
  | nil => simp [putSlot, slotIn?]
  | cons s slots ih =>
    obtain ⟨g, w⟩ := s
    simp only [putSlot]
    split
    · simp [slotIn?]
    · split
      · simp [slotIn?]
      · rw [slotIn?, if_neg (by omega)]
        exact ih

def extraIn? (number : Nat) : List (Nat × Extra) → Option Extra
  | [] => none
  | (n, e) :: extras => if n = number then some e else extraIn? number extras

def putExtra (number : Nat) (e : Extra) : List (Nat × Extra) → List (Nat × Extra)
  | [] => [(number, e)]
  | (n, d) :: extras =>
    if number < n then (number, e) :: (n, d) :: extras
    else if number = n then (number, e) :: extras
    else (n, d) :: putExtra number e extras

/-- The value a field holds, set or not. -/
def get? (m : Message) (f : FieldDef) : Option Value :=
  if f.extension then
    match extraIn? f.number m.extras with
    | some (.extension _ v) => some v
    | _ => none
  else slotIn? f.number m.slots

def get (m : Message) (f : FieldDef) : Value := (m.get? f).getD f.initial

def has (m : Message) (f : FieldDef) : Bool := (m.get? f).elim false f.isSet

/-- Setting one member of a oneof unsets the others. -/
def set (m : Message) (f : FieldDef) (v : Value) : Message :=
  if f.extension then { m with extras := putExtra f.number (.extension f v) m.extras }
  else
    let kept := m.slots.filter (fun s => f.oneof.isNone || s.1.oneof ≠ f.oneof || s.1.number = f.number)
    { m with slots := putSlot f v kept }

/-- Payloads of one number stay in the order they came. -/
def addUnknown (m : Message) (number : Nat) (p : Wire.Payload) : Message :=
  let before := match extraIn? number m.extras with
    | some (.unknown ps) => ps
    | _ => []
  { m with extras := putExtra number (.unknown (before ++ [p])) m.extras }

end Message

end WireQuery
