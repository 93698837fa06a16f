import WireQuery.Wire.Varint

namespace WireQuery.Wire

inductive Payload where
  | varint (v : UInt64)
  | fixed64 (v : UInt64)
  | bytes (b : Bytes)
  | group (fields : List (Nat × Payload))
  | fixed32 (v : UInt32)
  deriving Repr

abbrev Field := Nat × Payload

inductive WireType where
  | varint
  | fixed64
  | bytes
  | groupStart
  | groupEnd
  | fixed32
  deriving DecidableEq, Repr

namespace WireType

def code : WireType → Nat
  | varint => 0
  | fixed64 => 1
  | bytes => 2
  | groupStart => 3
  | groupEnd => 4
  | fixed32 => 5

def ofCode? : Nat → Option WireType
  | 0 => some varint
  | 1 => some fixed64
  | 2 => some bytes
  | 3 => some groupStart
  | 4 => some groupEnd
  | 5 => some fixed32
  | _ => none

@[simp] theorem ofCode?_code (t : WireType) : ofCode? t.code = some t := by
  cases t <;> rfl

theorem code_lt (t : WireType) : t.code < 8 := by
  cases t <;> decide

end WireType

def writeKey (number : Nat) (t : WireType) : Bytes := writeVarint (8 * number + t.code)

def writeBytes (b : Bytes) : Bytes := writeVarint b.length ++ b

/-- A payload without its key, as it stands in a packed run. -/
def Payload.body : Payload → Bytes
  | .varint v => writeVarint v.toNat
  | .fixed64 v => writeFixed 8 v.toNat
  | .bytes b => writeBytes b
  | .group _ => []
  | .fixed32 v => writeFixed 4 v.toNat

mutual

def Payload.write (number : Nat) : Payload → Bytes
  | .varint v => writeKey number .varint ++ writeVarint v.toNat
  | .fixed64 v => writeKey number .fixed64 ++ writeFixed 8 v.toNat
  | .bytes b => writeKey number .bytes ++ writeBytes b
  | .fixed32 v => writeKey number .fixed32 ++ writeFixed 4 v.toNat
  | .group fields => writeKey number .groupStart ++ write fields ++ writeKey number .groupEnd

def write : List (Nat × Payload) → Bytes
  | [] => []
  | (number, p) :: fields => p.write number ++ write fields

end

/-- A key fits thirty-two bits, and no field has number zero. -/
def readKey (s : Bytes) : Option (Nat × WireType × Bytes) :=
  match readVarint s with
  | none => none
  | some (k, r) =>
    if k < UInt32.size ∧ 0 < k / 8 then (WireType.ofCode? (k % 8)).map (fun t => (k / 8, t, r)) else none

theorem readKey_length (h : readKey s = some (n, t, r)) : r.length < s.length := by
  unfold readKey at h
  split at h
  · simp at h
  · next hv =>
    split at h
    · obtain ⟨_, _, he⟩ := Option.map_eq_some_iff.mp h
      simp only [Prod.mk.injEq] at he
      rw [← he.2.2]
      exact readVarint_length hv
    · simp at h

def readBytes (s : Bytes) : Option (Bytes × Bytes) :=
  (readVarint s).bind (fun (n, r) => take? n r)

theorem readBytes_length (h : readBytes s = some (b, r)) : r.length < s.length := by
  obtain ⟨⟨n, t⟩, hv, ht⟩ := Option.bind_eq_some_iff.mp h
  have hl := readVarint_length hv
  obtain ⟨rfl, _⟩ := eq_append_of_take? ht
  simp only [List.length_append] at hl
  omega

/-- One payload that is not a group. -/
def readPlain : WireType → Bytes → Option (Payload × Bytes)
  | .varint, s => (readVarint s).map (fun (v, r) => (.varint (UInt64.ofNat v), r))
  | .fixed64, s => (readFixed 8 s).map (fun (v, r) => (.fixed64 (UInt64.ofNat v), r))
  | .bytes, s => (readBytes s).map (fun (b, r) => (.bytes b, r))
  | .fixed32, s => (readFixed 4 s).map (fun (v, r) => (.fixed32 (UInt32.ofNat v), r))
  | _, _ => none

theorem readPlain_length (h : readPlain t s = some (p, r)) : r.length < s.length := by
  unfold readPlain at h
  split at h
  · obtain ⟨⟨v, q⟩, hv, he⟩ := Option.map_eq_some_iff.mp h
    simp only [Prod.mk.injEq] at he
    exact he.2 ▸ readVarint_length hv
  · obtain ⟨⟨v, q⟩, hv, he⟩ := Option.map_eq_some_iff.mp h
    simp only [Prod.mk.injEq] at he
    have := readFixed_length hv
    rw [← he.2]
    omega
  · obtain ⟨⟨v, q⟩, hv, he⟩ := Option.map_eq_some_iff.mp h
    simp only [Prod.mk.injEq] at he
    exact he.2 ▸ readBytes_length hv
  · obtain ⟨⟨v, q⟩, hv, he⟩ := Option.map_eq_some_iff.mp h
    simp only [Prod.mk.injEq] at he
    have := readFixed_length hv
    rw [← he.2]
    omega
  · simp at h

/-- The payloads of one packed run, which has no keys. -/
def readRun (t : WireType) (s : Bytes) : Option (List Payload) :=
  match s with
  | [] => some []
  | b :: s =>
    match h : readPlain t (b :: s) with
    | none => none
    | some (p, r) =>
      have := Nat.le_of_lt_succ (readPlain_length h)
      (readRun t r).map (p :: ·)
termination_by s.length

/-- What a reader of fields has to know of the message they belong to. -/
structure Framing (σ : Type) where
  /-- Whether the field is read as a length and that many bytes, whatever its key says. -/
  sized : σ → Nat → Bool
  /-- What is known inside a group of this number. -/
  inside : σ → Nat → σ

/-- Nothing is known, and nothing is read against its key. -/
def Framing.plain : Framing Unit := ⟨fun _ _ => false, fun _ _ => ()⟩

/-- A group that is still open: its number, and the fields before it, last first. -/
structure Frame (σ : Type) where
  number : Nat
  state : σ
  before : List Field

/-- Reads to the end, with `frames` the groups still open and `done` the fields of the innermost, last first. -/
def readIn (f : Framing σ) (state : σ) (done : List Field) (frames : List (Frame σ)) (s : Bytes) :
    Option (List Field) :=
  if s.isEmpty then
    if frames.isEmpty then some done.reverse else none
  else
    match hk : readKey s with
    | none => none
    | some (n, t, r) =>
      have := readKey_length hk
      match frames, t with
      | fr :: frames, .groupEnd =>
        if fr.number = n then readIn f fr.state ((n, .group done.reverse) :: fr.before) frames r else none
      | frames, t =>
        let t := if f.sized state n then .bytes else t
        if t = .groupStart then readIn f (f.inside state n) [] (⟨n, state, done⟩ :: frames) r
        else
          match hp : readPlain t r with
          | none => none
          | some (p, r') =>
            have := readPlain_length hp
            readIn f state ((n, p) :: done) frames r'
termination_by s.length

def read (f : Framing σ) (state : σ) (s : Bytes) : Option (List Field) := readIn f state [] [] s

mutual

/-- The groups that open one inside the other. -/
def Payload.groupDepth : Payload → Nat
  | .group fields => groupDepthIn fields + 1
  | _ => 0

def groupDepthIn : List (Nat × Payload) → Nat
  | [] => 0
  | (_, p) :: fields => max p.groupDepth (groupDepthIn fields)

end

mutual

/-- The levels that passing over a field takes: one, and for a group those of its fields besides. -/
def Payload.levels : Payload → Nat
  | .group fields => levelsIn fields + 1
  | _ => 1

def levelsIn : List (Nat × Payload) → Nat
  | [] => 0
  | (_, p) :: fields => max p.levels (levelsIn fields)

end

end WireQuery.Wire
