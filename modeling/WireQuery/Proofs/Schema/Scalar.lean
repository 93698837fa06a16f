import WireQuery.Schema.Field
import WireQuery.Schema.Literal
import WireQuery.Proofs.Wire.Reading

namespace WireQuery

theorem toInt32_extend (v : Int32) : (extend v).toUInt32.toInt32 = v := by
  apply Int32.toBitVec_inj.mp
  simp only [extend, UInt32.toBitVec_toInt32, UInt64.toBitVec_toUInt32, Int64.toBitVec_toUInt64, Int32.toBitVec_toInt64]
  ext i hi
  simp [BitVec.getLsbD_signExtend, hi]
  omega

theorem zigzag_int32 (v : Int32) : (UInt64.ofNat (zigzag v.toInt)).toUInt32.toNat = zigzag v.toInt := by
  have := v.toInt_lt
  have := v.le_toInt
  have hz : zigzag v.toInt < 2 ^ 32 := by
    unfold zigzag
    split <;> omega
  simp only [UInt64.toNat_toUInt32, UInt64.toNat_ofNat']
  omega

theorem zigzag_int64 (v : Int64) : (UInt64.ofNat (zigzag v.toInt)).toNat = zigzag v.toInt := by
  have := v.toInt_lt
  have := v.le_toInt
  have hz : zigzag v.toInt < 2 ^ 64 := by
    unfold zigzag
    split <;> omega
  simp only [UInt64.toNat_ofNat']
  omega

namespace ScalarKind

theorem read?_payload (h : Scalar.kind? s = some k) : k.read? s.payload = some s := by
  cases s <;> simp only [Scalar.kind?, Option.some.injEq, reduceCtorEq] at h
  all_goals subst h
  case int32 v => simp [read?, Scalar.payload, toInt32_extend]
  case sint32 v => simp only [read?, Scalar.payload, zigzag_int32, unzigzag_zigzag, Int32.ofInt_toInt]
  case sint64 v => simp only [read?, Scalar.payload, zigzag_int64, unzigzag_zigzag, Int64.ofInt_toInt]
  case bool b => cases b <;> rfl
  case string s => simp [read?, Scalar.payload, Utf8.decode?_encode]
  all_goals simp [read?, Scalar.payload]

theorem kind?_of_read? (h : read? k p = some s) : s.kind? = some k := by
  unfold read? at h
  split at h
  all_goals first | contradiction | skip
  case h_14 =>
    obtain ⟨t, _, rfl⟩ := Option.map_eq_some_iff.mp h
    rfl
  all_goals
    cases h
    rfl

@[simp] theorem kind?_zero (k : ScalarKind) : k.zero.kind? = some k := by
  cases k <;> rfl

theorem kind?_of_ofInt? (h : ofInt? k i = some s) : s.kind? = some k := by
  unfold ofInt? at h
  dsimp only at h
  split at h
  all_goals first | contradiction | skip
  all_goals
    split at h
    · cases h
      rfl
    · contradiction

/-- A default that a declaration spells is of the kind it was read for. -/
theorem kind?_of_parse? (h : parse? k s = some v) : v.kind? = some k := by
  unfold parse? at h
  split at h
  case h_3 =>
    split at h
    · cases h
      rfl
    · split at h
      · cases h
        rfl
      · contradiction
  case h_4 =>
    cases h
    rfl
  case h_6 =>
    obtain ⟨_, _, hi⟩ := Option.bind_eq_some_iff.mp h
    exact kind?_of_ofInt? hi
  all_goals
    obtain ⟨_, _, rfl⟩ := Option.map_eq_some_iff.mp h
    rfl

end ScalarKind

theorem readEnum?_inv (h : readEnum? payload = some s) : ∃ n, s = .enum n := by
  unfold readEnum? at h
  split at h
  · exact ⟨_, (Option.some.inj h).symm⟩
  · contradiction

namespace Kind

theorem readScalar?_enum (name : String) (n : Int32) :
    (Kind.enum name).readScalar? (Scalar.enum n).payload = some (.enum n) := by
  simp [readScalar?, readEnum?, Scalar.payload, toInt32_extend]

/-- What was read is read again from its own payload. -/
theorem readScalar?_payload (h : readScalar? kind p = some s) : kind.readScalar? s.payload = some s := by
  cases kind with
  | scalar k => exact ScalarKind.read?_payload (ScalarKind.kind?_of_read? h)
  | enum name =>
    obtain ⟨n, rfl⟩ := readEnum?_inv h
    exact readScalar?_enum name n
  | message name => simp [readScalar?] at h
  | map name => simp [readScalar?] at h

theorem plainType?_packed (ht : packedType? kind = some t) (h : kind.readScalar? p = some s) :
    p.plainType? = some t := by
  cases kind with
  | scalar k =>
    cases k <;> cases p <;>
      simp_all [packedType?, readScalar?, ScalarKind.read?, ScalarKind.wireType, Wire.Payload.plainType?]
  | enum name =>
    cases p <;> simp_all [packedType?, readScalar?, readEnum?, Wire.Payload.plainType?]
  | message name => simp [packedType?] at ht
  | map name => simp [packedType?] at ht

/-- An element of a packed run is read by its layout. -/
theorem readPlain_packed (ht : packedType? kind = some t) (h : kind.readScalar? p = some s) (r : Bytes) :
    Wire.readPlain t (p.body ++ r) = some (p, r) :=
  Wire.readPlain_body (plainType?_packed ht h) r

end Kind

end WireQuery
