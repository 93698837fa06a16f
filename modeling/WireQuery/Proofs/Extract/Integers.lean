import WireQuery.Proofs.Extract.Elements

namespace WireQuery

/-- The number that a scalar stands for, if it is of an integer kind, a truth value or an enum value. -/
def Scalar.number? : Scalar → Option Int
  | int32 v | sint32 v | sfixed32 v | enum v => some v.toInt
  | int64 v | sint64 v | sfixed64 v => some v.toInt
  | uint32 v | fixed32 v => some v.toNat
  | uint64 v | fixed64 v => some v.toNat
  | bool b => some (if b then 1 else 0)
  | _ => none

/-- The scalar is an unsigned number of sixty-four bits. -/
inductive Scalar.Wide (v : UInt64) : Scalar → Prop
  | uint64 : Wide v (.uint64 v)
  | fixed64 : Wide v (.fixed64 v)

theorem toInt64_eq_ofInt (v : UInt64) : v.toInt64 = Int64.ofInt v.toNat := by
  rw [Int64.ofInt_eq_ofNat, ← UInt64.toInt64_ofNat', UInt64.ofNat_toNat]

namespace Scalar

variable {s : Scalar}

theorem wide?_iff : s.wide? = some v ↔ s.Wide v := by
  constructor
  · intro h
    cases s with
    | uint64 u =>
      cases h
      exact .uint64
    | fixed64 u =>
      cases h
      exact .fixed64
    | _ => contradiction
  · rintro (_ | _) <;> rfl

theorem Wide.number? (h : s.Wide v) : s.number? = some (v.toNat : Int) := by
  cases h <;> rfl

/-- All numbers are taken over by one conversion. -/
theorem datum_of_number? (h : s.number? = some z) : s.datum = .integer (Int64.ofInt z) := by
  cases s with
  | int32 v | sint32 v | sfixed32 v | enum v =>
    cases h
    rw [datum, Int64.ofInt_int32ToInt]
  | int64 v | sint64 v | sfixed64 v =>
    cases h
    rw [datum, Int64.ofInt_toInt]
  | uint32 v | fixed32 v =>
    cases h
    rw [datum, toInt64_eq_ofInt, UInt32.toNat_toUInt64]
  | uint64 v | fixed64 v =>
    cases h
    rw [datum, toInt64_eq_ofInt]
  | bool b =>
    cases h
    cases b <;> rfl
  | _ => contradiction

theorem number?_of_datum (h : s.datum = .integer w) : ∃ z, s.number? = some z := by
  cases s with
  | double b | float b | string t | bytes b => contradiction
  | _ => exact ⟨_, rfl⟩

/-- Only unsigned numbers of sixty-four bits go above the signed range. -/
theorem number_range (h : s.number? = some z) : -2 ^ 63 ≤ z ∧ (z < 2 ^ 63 ∨ ∃ v, s.Wide v) := by
  cases s with
  | int32 v | sint32 v | sfixed32 v | enum v =>
    cases h
    have hl := v.le_toInt
    have hu := v.toInt_lt
    omega
  | int64 v | sint64 v | sfixed64 v =>
    cases h
    have hl := v.le_toInt
    have hu := v.toInt_lt
    omega
  | uint32 v | fixed32 v =>
    cases h
    have hu := v.toNat_lt
    omega
  | uint64 v =>
    cases h
    exact ⟨by omega, .inr ⟨v, .uint64⟩⟩
  | fixed64 v =>
    cases h
    exact ⟨by omega, .inr ⟨v, .fixed64⟩⟩
  | bool b =>
    cases h
    cases b <;> simp
  | _ => contradiction

end Scalar

theorem EnumAccessor.ofField?_number {name : String} (h : ofField? name = some .number) : name = "number" := by
  unfold ofField? at h
  split at h
  · contradiction
  · rfl
  · contradiction

namespace Walk

variable {w : Walk}

theorem warnings_of_wide (hs : s.Wide v) :
    w.warnings s = if w.warnOnUnsigned = true ∧ 2 ^ 63 ≤ v.toNat then [.wrapped w.rootType w.path.text v] else [] := by
  have hv : (9223372036854775807 : UInt64) < v ↔ 2 ^ 63 ≤ v.toNat := by
    rw [UInt64.lt_iff_toNat_lt]
    exact Nat.succ_le_iff.symm
  simp [warnings, Scalar.wide?_iff.mpr hs, hv]

/-- Only one thing is ever told of. -/
theorem warnings_cases (w : Walk) (s : Scalar) : w.warnings s = [] ∨ ∃ v, w.warnOnUnsigned = true ∧
    2 ^ 63 ≤ v.toNat ∧ s.Wide v ∧ w.warnings s = [.wrapped w.rootType w.path.text v] := by
  cases hs : s.wide? with
  | none => exact .inl (by simp [warnings, hs])
  | some v =>
    have hwide := Scalar.wide?_iff.mp hs
    rw [warnings_of_wide hwide]
    split
    · next h => exact .inr ⟨v, h.1, h.2, hwide, rfl⟩
    · exact .inl rfl

theorem accessor_warnings (h : accessor n e name = .ok x) : x.warnings = [] := by
  unfold accessor at h
  split at h
  · cases h
    rfl
  · split at h
    · cases h
      rfl
    · contradiction
  · contradiction

theorem accessor_integer (h : accessor n e name = .ok ⟨.integer i, ws⟩) : name = "number" := by
  unfold accessor at h
  split at h
  · next ha => exact EnumAccessor.ofField?_number ha
  · split at h <;> cases h
  · contradiction

end Walk

namespace Registry

/-- The number on which a path ends: of a scalar, or of an enum value, which may be asked for its number or not. -/
inductive EndsOn (r : Registry) (b : Bytes) (type : String) (path : Path) : Int → Prop
  | scalar (hr : r.Reaches b type path (.single (.scalar s))) (hz : s.number? = some z) : EndsOn r b type path z
  | enum (hr : r.Reaches b type path (.enum n e)) : EndsOn r b type path n.toInt
  | number (hs : path.steps = before ++ [.field "number"]) (hr : r.Reaches b type ⟨before⟩ (.enum n e)) :
    EndsOn r b type path n.toInt

/-- The path ends on an unsigned number that is above the signed range. -/
def EndsAbove (r : Registry) (b : Bytes) (type : String) (path : Path) (v : UInt64) : Prop :=
  2 ^ 63 ≤ v.toNat ∧ ∃ s : Scalar, s.Wide v ∧ r.Reaches b type path (.single (.scalar s))

theorem Reaches.extract_end (h : (empty.run history).Reaches b type path node) :
    ∃ t : MessageType, ∀ warn,
      (empty.run history).extract warn b type path = (Walk.mk t.pool type path warn).finish node := by
  obtain ⟨t, -, -, -, hgo⟩ := h.extract
  refine ⟨t, fun warn => ?_⟩
  have hend := hgo warn []
  rwa [List.append_nil, Walk.go_nil] at hend

theorem EndsOn.extract (h : (empty.run history).EndsOn b type path z) (warn : Bool) :
    ∃ ws, (empty.run history).extract warn b type path = .ok ⟨.integer (Int64.ofInt z), ws⟩ := by
  cases h with
  | scalar hr hz =>
    obtain ⟨t, hend⟩ := hr.extract_end
    rw [hend, Walk.finish, Scalar.datum_of_number? hz]
    exact ⟨_, rfl⟩
  | enum hr =>
    obtain ⟨t, hend⟩ := hr.extract_end
    rw [hend, Walk.finish, Int64.ofInt_int32ToInt]
    exact ⟨_, rfl⟩
  | number hs hr =>
    obtain ⟨t, -, -, -, hgo⟩ := hr.extract
    have hnumber := hgo warn [.field "number"]
    rw [← hs] at hnumber
    rw [hnumber, Int64.ofInt_int32ToInt]
    exact ⟨_, rfl⟩

/-- Above the signed range there are unsigned numbers only. -/
theorem EndsOn.range {r : Registry} (h : r.EndsOn b type path z) :
    -2 ^ 63 ≤ z ∧ (z < 2 ^ 63 ∨ ∃ v, r.EndsAbove b type path v ∧ z = v.toNat) := by
  cases h with
  | scalar hr hz =>
    obtain ⟨hlow, hhigh | ⟨v, hs⟩⟩ := Scalar.number_range hz
    · exact ⟨hlow, .inl hhigh⟩
    · obtain rfl : z = v.toNat := Option.some.inj (hz.symm.trans hs.number?)
      by_cases hv : 2 ^ 63 ≤ v.toNat
      · exact ⟨hlow, .inr ⟨v, ⟨hv, _, hs, hr⟩, rfl⟩⟩
      · exact ⟨hlow, .inl (by omega)⟩
  | @enum n =>
    have hl := n.le_toInt
    have hu := n.toInt_lt
    omega
  | @number _ n =>
    have hl := n.le_toInt
    have hu := n.toInt_lt
    omega

theorem EndsAbove.extract (h : (empty.run history).EndsAbove b type path v) (warn : Bool) :
    (empty.run history).extract warn b type path =
      .ok ⟨.integer (Int64.ofInt v.toNat), if warn then [.wrapped type path.text v] else []⟩ := by
  obtain ⟨hv, s, hs, hr⟩ := h
  obtain ⟨t, hend⟩ := hr.extract_end
  rw [hend, Walk.finish, Scalar.datum_of_number? hs.number?, Walk.warnings_of_wide hs]
  simp only [hv, and_true]

/-- How an extraction that gives a value ends. -/
theorem ends_of_extract (h : (empty.run history).extract warn b type path = .ok x) :
    ∃ t m, (empty.run history).message? type = .ok t ∧ t.pool.read? t.definition b = some m ∧ t.pool.Sound ∧
      (Node.message t.definition m).Fits t.pool ∧
      (Walk.mk t.pool type path warn).Ends (.message t.definition m) path.steps x := by
  obtain ⟨t, m, ht, hread, hgo⟩ := read_of_extract h
  obtain ⟨hp, hroot⟩ := root_fits ht hread
  exact ⟨t, m, ht, hread, hp, hroot, Walk.go_ends hp hroot hgo⟩

theorem endsOn_of_integer (h : (empty.run history).extract warn b type path = .ok ⟨.integer w, ws⟩) :
    ∃ z, (empty.run history).EndsOn b type path z := by
  obtain ⟨t, m, ht, hread, hp, hroot, hends⟩ := ends_of_extract h
  cases hends with
  | absent hs hr hx => cases hx
  | accessor hs hr hx =>
    rw [Walk.accessor_integer hx] at hs
    exact ⟨_, .number hs ⟨t, m, ht, hread, hr⟩⟩
  | reached hr hx =>
    have hreach : (empty.run history).Reaches b type path _ := ⟨t, m, ht, hread, hr⟩
    cases hr.fits hp hroot with
    | enum => exact ⟨_, .enum hreach⟩
    | scalar =>
      obtain ⟨z, hz⟩ := Scalar.number?_of_datum (congrArg Extraction.value (Except.ok.inj hx))
      exact ⟨z, .scalar hreach hz⟩
    | _ => cases hx

theorem warnings_of_extract (h : (empty.run history).extract warn b type path = .ok x) :
    x.warnings = [] ∨ ∃ v, warn = true ∧ (empty.run history).EndsAbove b type path v ∧
      x.warnings = [.wrapped type path.text v] := by
  obtain ⟨t, m, ht, hread, hp, hroot, hends⟩ := ends_of_extract h
  cases hends with
  | absent hs hr hx => exact .inl (by rw [hx])
  | accessor hs hr hx => exact .inl (Walk.accessor_warnings hx)
  | reached hr hx =>
    have hreach : (empty.run history).Reaches b type path _ := ⟨t, m, ht, hread, hr⟩
    cases hr.fits hp hroot with
    | @scalar s =>
      obtain rfl := Except.ok.inj hx
      obtain hnone | ⟨v, hwarn, hv, hs, hone⟩ := Walk.warnings_cases ⟨t.pool, type, path, warn⟩ s
      · exact .inl hnone
      · exact .inr ⟨v, hwarn, ⟨hv, s, hs, hreach⟩, hone⟩
    | repeated hk hv => contradiction
    | _ =>
      obtain rfl := Except.ok.inj hx
      exact .inl rfl

/-- What is told beside a value does not change the value, or the error. -/
theorem extract_value_of_warn (history : List Request) (b : Bytes) (type : String) (path : Path) (warn warn' : Bool) :
    ((empty.run history).extract warn b type path).map (·.value) =
      ((empty.run history).extract warn' b type path).map (·.value) := by
  cases ht : (empty.run history).message? type with
  | error e => rw [extract_unknown ht, extract_unknown ht]
  | ok t =>
    cases hread : t.pool.read? t.definition b with
    | none => rw [extract_of_corrupt ht hread, extract_of_corrupt ht hread]
    | some m =>
      obtain ⟨hp, hroot⟩ := root_fits ht hread
      rw [extract_of_read ht hread, extract_of_read ht hread]
      exact Walk.go_value (w := ⟨t.pool, type, path, warn⟩) hp (by rfl) hroot path.steps

/-- An extraction gives an integer exactly if its path ends on a number. The integer is that number, or the number is
an unsigned one above the signed range, and then it is the number wrapped. A warning is given exactly if that happens
and warnings are asked for, one only, and it tells the type, the whole path and the number. Whether warnings are asked
for changes no value and no error. -/
theorem integers_exact_or_wrapped (history : List Request) (b : Bytes) (type : String) (path : Path) (warn : Bool) :
    let r := empty.run history
    let result := r.extract warn b type path
    ((∃ w ws, result = .ok ⟨.integer w, ws⟩) ↔ ∃ z, r.EndsOn b type path z) ∧
    (∀ z, r.EndsOn b type path z → ∃ w ws, result = .ok ⟨.integer w, ws⟩ ∧ w.toInt ≡ z [ZMOD 2 ^ 64] ∧
      (w.toInt = z ∨ ∃ v, r.EndsAbove b type path v ∧ z = v.toNat)) ∧
    (∀ x, result = .ok x → x.warnings = [] ∨ ∃ v, x.warnings = [.wrapped type path.text v]) ∧
    (∀ v, (∃ value, result = .ok ⟨value, [.wrapped type path.text v]⟩) ↔
      warn = true ∧ r.EndsAbove b type path v) ∧
    ∀ warn', (r.extract warn' b type path).map (·.value) = result.map (·.value) := by
  intro r result
  refine ⟨⟨?_, ?_⟩, ?_, ?_, ?_, ?_⟩
  · rintro ⟨w, ws, h⟩
    exact endsOn_of_integer h
  · rintro ⟨z, h⟩
    exact ⟨_, h.extract warn⟩
  · intro z h
    obtain ⟨ws, hresult⟩ := h.extract warn
    obtain ⟨hlow, hrange⟩ := h.range
    refine ⟨_, ws, hresult, ?_, ?_⟩
    · rw [Int64.toInt_ofInt]
      exact Int.bmod_emod
    · rcases hrange with hhigh | habove
      · exact .inl (Int64.toInt_ofInt_of_le hlow hhigh)
      · exact .inr habove
  · intro x h
    obtain hnone | ⟨v, -, -, hone⟩ := warnings_of_extract h
    · exact .inl hnone
    · exact .inr ⟨v, hone⟩
  · intro v
    constructor
    · rintro ⟨value, h⟩
      obtain hnone | ⟨u, hwarn, habove, hone⟩ := warnings_of_extract h
      · contradiction
      · cases hone
        exact ⟨hwarn, habove⟩
    · rintro ⟨hwarn, habove⟩
      have hresult := habove.extract warn
      rw [if_pos hwarn] at hresult
      exact ⟨_, hresult⟩
  · intro warn'
    exact extract_value_of_warn history b type path warn' warn

/-- Counters hold one unsigned number. -/
def counter : FileDecl :=
  (FileDecl.named "counter.proto").message ((MessageDecl.named "Counter").optional "total" 1 (.scalar .uint64))

def counterLoad : Request := .load .allow (.memory (FileDecl.writeBundle [counter]))

/-- The largest unsigned number comes out as minus one, with a warning if that is asked for. -/
theorem largest_unsigned_wrapped :
    let r := empty.run [counterLoad]
    let b : Bytes := [8, 255, 255, 255, 255, 255, 255, 255, 255, 255, 1]
    (∃ value, r.extract true b "Counter" ⟨[.field "total"]⟩ =
      .ok ⟨value, [.wrapped "Counter" "$.total" 18446744073709551615]⟩) ∧
      r.EndsAbove b "Counter" ⟨[.field "total"]⟩ 18446744073709551615 ∧
      (r.extract false b "Counter" ⟨[.field "total"]⟩).map (·.value) = .ok (.integer (-1)) := by
  intro r b
  have hresult : (empty.run [counterLoad]).extract true [8, 255, 255, 255, 255, 255, 255, 255, 255, 255, 1]
      "Counter" ⟨[.field "total"]⟩ =
        .ok ⟨.integer (-1), [.wrapped "Counter" "$.total" 18446744073709551615]⟩ := by cbv
  obtain ⟨-, -, -, hwarned, hvalue⟩ := integers_exact_or_wrapped [counterLoad] b "Counter" ⟨[.field "total"]⟩ true
  have hpath : (⟨[.field "total"]⟩ : Path).text = "$.total" := by cbv
  rw [hpath] at hwarned
  refine ⟨⟨_, hresult⟩, ((hwarned _).mp ⟨_, hresult⟩).2, (hvalue false).trans ?_⟩
  rw [show r.extract true b _ _ = _ from hresult]
  rfl

end Registry

end WireQuery
