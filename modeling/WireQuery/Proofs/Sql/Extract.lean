import Mathlib
import WireQuery.Sql.Connection

/-!
Extraction as SQL calls it, by a rule for each way that a call can end. What it computes is what the core computes.
-/

namespace WireQuery

/-- What a statement reports of the text that a function fails with. A text that holds a zero character is lost. -/
inductive Reported : String → String → Prop
  | whole (h : '\x00' ∉ text.toList) : Reported text text
  | lost (h : '\x00' ∈ text.toList) : Reported text "constraint failed"

theorem Reported.some (text : String) : ∃ reported, Reported text reported := by
  by_cases h : '\x00' ∈ text.toList
  · exact ⟨_, .lost h⟩
  · exact ⟨_, .whole h⟩

theorem SqlError.reported_iff {e : SqlError} :
    Reported (e.message codec) text ↔ text = e.functionText codec := by
  unfold functionText
  by_cases h : '\x00' ∈ (e.message codec).toList
  · rw [if_pos (List.contains_iff_mem.mpr h)]
    constructor
    · intro hr
      cases hr with
      | whole hn => contradiction
      | lost => rfl
    · rintro rfl
      exact .lost h
  · rw [if_neg (fun hc => h (List.contains_iff_mem.mp hc))]
    constructor
    · intro hr
      cases hr with
      | whole => rfl
      | lost hn => contradiction
    · rintro rfl
      exact .whole h

/-- Complaints about arguments do not have the codec's words in them. -/
theorem SqlError.functionText_argument (codec : Codec) (function detail : String) :
    (argument function detail).functionText codec = (argument function detail).functionText {} := rfl

namespace SqlValue

/-- What SQL gets for a value. A nan is no value there. -/
inductive Stands : Datum → SqlValue → Prop
  | null : Stands .null .null
  | integer : Stands (.integer i) (.integer i)
  | real (h : ¬Binary.isNan Binary.double bits.toNat) : Stands (.real bits) (.real bits)
  | nan (h : Binary.isNan Binary.double bits.toNat) : Stands (.real bits) .null
  | text : Stands (.text s) (.ofText s)
  | blob : Stands (.blob b) (.blob b)

theorem stands_iff : Stands d v ↔ v = ofDatum d := by
  constructor
  · intro h
    cases h with
    | real hn => rw [ofDatum, ofReal, if_neg hn]
    | nan hn => rw [ofDatum, ofReal, if_pos hn]
    | _ => rfl
  · rintro rfl
    cases d with
    | null => exact .null
    | integer i => exact .integer
    | real bits =>
      by_cases hn : Binary.isNan Binary.double bits.toNat
      · rw [ofDatum, ofReal, if_pos hn]
        exact .nan hn
      · rw [ofDatum, ofReal, if_neg hn]
        exact .real hn
    | text s => exact .text
    | blob b => exact .blob

theorem ofText_ne_null (s : String) : ofText s ≠ null := SqlValue.noConfusion

theorem decode?_of_not_text {b : Bytes} (h : ∀ s, text b ≠ ofText s) : Utf8.decode? b = none :=
  Option.eq_none_iff_forall_ne_some.mpr (fun s hs => h s (by rw [ofText, Utf8.eq_encode_of_decode? hs]))

theorem asPath_ofText (s : String) :
    (ofText s).asPath = (Path.parse s).mapError (fun e => .failed (.malformedPath e)) := by
  rw [ofText, asPath, Utf8.decode?_encode, Option.map_some]
  cases Path.parse s <;> rfl

theorem asPath_of_not_text {v : SqlValue} (h : ∀ s, v ≠ ofText s) :
    v.asPath = .error (.argument extractName "path must be TEXT") := by
  cases v with
  | text b => rw [asPath, decode?_of_not_text h, Option.map_none]
  | _ => rfl

theorem asText_of_not_text {v : SqlValue} (h : ∀ s, v ≠ ofText s) (index : Nat) : ∃ e, v.asText index = .error e := by
  cases v with
  | text b => exact ⟨_, by rw [asText, decode?_of_not_text h]⟩
  | _ => exact ⟨_, rfl⟩

theorem asData_of_no_bytes {v : SqlValue} (hb : ∀ b, v ≠ blob b) (ht : ∀ b, v ≠ text b) :
    v.asData = .error (.argument extractName ("data must be a BLOB, got " ++ v.typeName)) := by
  cases v with
  | blob b => exact absurd rfl (hb b)
  | text b => exact absurd rfl (ht b)
  | _ => rfl

theorem functionText_noData (codec : Codec) (v : SqlValue) :
    (SqlError.argument extractName ("data must be a BLOB, got " ++ v.typeName)).functionText codec =
      "protobuf_extract: data must be a BLOB, got " ++ v.typeName := by
  rw [SqlError.functionText_argument]
  cases v <;> simp only [typeName] <;> rfl

end SqlValue

namespace Registry

variable {r : Registry} {data type path : SqlValue}

theorem extractValue_of_path_error (hn : path ≠ .null) (h : path.asPath = .error e) :
    r.extractValue warn data type path = .error e := by
  rw [extractValue, if_neg hn, h]
  rfl

theorem extractValue_of_path (hp : Path.parse s = .ok p) : r.extractValue warn data type (.ofText s) =
    if data = .null ∨ type = .null then .ok ⟨.null, []⟩
    else (type.asText 1).bind (fun t => data.asData.bind (fun b =>
      match r.extract warn b t p with
      | .ok x => .ok ⟨.ofDatum x.value, x.warnings⟩
      | .error e => .error (.failed e))) := by
  rw [extractValue, if_neg (SqlValue.ofText_ne_null s), SqlValue.asPath_ofText, hp]
  rfl

/-- With a path, a type and bytes it is the core that decides. -/
theorem extractValue_eq_extractText (hp : Path.parse s = .ok p) (hd : data = .blob b ∨ data = .text b) :
    r.extractValue warn data (.ofText t) (.ofText s) =
      match r.extractText warn b t s with
      | .ok x => .ok ⟨.ofDatum x.value, x.warnings⟩
      | .error e => .error (.failed e) := by
  have hnull : ¬(data = .null ∨ SqlValue.ofText t = .null) := by
    rcases hd with rfl | rfl <;> simp [SqlValue.ofText_ne_null]
  have hbytes : data.asData = .ok b := by
    rcases hd with rfl | rfl <;> rfl
  rw [extractValue_of_path hp, if_neg hnull, SqlValue.asText_ofText, hbytes, extractText, hp]
  rfl

end Registry

namespace Connection

/-- How a call of the function ends, by its arguments: data, type and path. -/
inductive Gives (c : Connection) : SqlValue → SqlValue → SqlValue → Outcome SqlValue → Prop
  | nullPath : c.Gives data type .null ⟨.ok .null, []⟩
  | noPath (hn : path ≠ .null) (hp : ∀ s, path ≠ .ofText s) :
    c.Gives data type path ⟨.error "protobuf_extract: path must be TEXT", []⟩
  | malformedPath (hp : Path.parse s = .error e) (hr : Reported e.message text) :
    c.Gives data type (.ofText s) ⟨.error text, []⟩
  | nullArgument (hp : Path.parse s = .ok p) (hn : data = .null ∨ type = .null) :
    c.Gives data type (.ofText s) ⟨.ok .null, []⟩
  | noType (hp : Path.parse s = .ok p) (hn : ¬(data = .null ∨ type = .null)) (ht : ∀ t, type ≠ .ofText t)
    (he : type.asText 1 = .error e) (hr : Reported (e.message c.codec) text) :
    c.Gives data type (.ofText s) ⟨.error text, []⟩
  | noData (hp : Path.parse s = .ok p) (hn : data ≠ .null) (hb : ∀ b, data ≠ .blob b) (ht : ∀ b, data ≠ .text b) :
    c.Gives data (.ofText t) (.ofText s) ⟨.error ("protobuf_extract: data must be a BLOB, got " ++ data.typeName), []⟩
  /-- The core gives a value for the same bytes, type and path. -/
  | value (hp : Path.parse s = .ok p) (hd : data = .blob b ∨ data = .text b)
    (hx : c.registry.extractText c.config.warnOnUnsigned b t s = .ok x) (hv : SqlValue.Stands x.value v) :
    c.Gives data (.ofText t) (.ofText s) ⟨.ok v, x.warnings⟩
  | error (hp : Path.parse s = .ok p) (hd : data = .blob b ∨ data = .text b)
    (hx : c.registry.extractText c.config.warnOnUnsigned b t s = .error e)
    (hr : Reported (e.message c.codec) text) :
    c.Gives data (.ofText t) (.ofText s) ⟨.error text, []⟩

variable {c : Connection} {data type path : SqlValue}

theorem extract_of_ok (h : c.registry.extractValue c.config.warnOnUnsigned data type path = .ok x) :
    c.extract data type path = ⟨.ok x.value, x.warnings⟩ := by
  rw [extract, h]

theorem extract_of_error (h : c.registry.extractValue c.config.warnOnUnsigned data type path = .error e) :
    c.extract data type path = ⟨.error (e.functionText c.codec), []⟩ := by
  rw [extract, h]

theorem extract_of_reported (h : c.registry.extractValue c.config.warnOnUnsigned data type path = .error e)
    (hr : Reported (e.message c.codec) text) : c.extract data type path = ⟨.error text, []⟩ := by
  rw [extract_of_error h, SqlError.reported_iff.mp hr]

theorem extract_of_gives (h : c.Gives data type path o) : c.extract data type path = o := by
  cases h with
  | nullPath => rfl
  | noPath hn hp =>
    rw [extract_of_error (Registry.extractValue_of_path_error hn (SqlValue.asPath_of_not_text hp)),
      SqlError.functionText_argument]
    rfl
  | malformedPath hp hr =>
    refine extract_of_reported (e := .failed (.malformedPath _)) ?_ hr
    refine Registry.extractValue_of_path_error (SqlValue.ofText_ne_null _) ?_
    rw [SqlValue.asPath_ofText, hp]
    rfl
  | nullArgument hp hn => exact extract_of_ok (by rw [Registry.extractValue_of_path hp, if_pos hn])
  | noType hp hn ht he hr =>
    refine extract_of_reported ?_ hr
    rw [Registry.extractValue_of_path hp, if_neg hn, he]
    rfl
  | noData hp hn hb ht =>
    rw [← SqlValue.functionText_noData c.codec]
    refine extract_of_error ?_
    rw [Registry.extractValue_of_path hp, if_neg (by simp [SqlValue.ofText_ne_null, hn]), SqlValue.asText_ofText,
      Except.bind, SqlValue.asData_of_no_bytes hb ht]
    rfl
  | value hp hd hx hv =>
    obtain rfl := SqlValue.stands_iff.mp hv
    exact extract_of_ok (by rw [Registry.extractValue_eq_extractText hp hd, hx])
  | error hp hd hx hr =>
    exact extract_of_reported (e := .failed _) (by rw [Registry.extractValue_eq_extractText hp hd, hx]) hr

/-- No call is left out. -/
theorem gives_some (c : Connection) (data type path : SqlValue) : ∃ o, c.Gives data type path o := by
  by_cases hpath : path = .null
  · subst hpath
    exact ⟨_, .nullPath⟩
  by_cases htext : ∀ s, path ≠ .ofText s
  · exact ⟨_, .noPath hpath htext⟩
  obtain ⟨s, rfl⟩ : ∃ s, path = .ofText s := by simpa using htext
  cases hp : Path.parse s with
  | error e =>
    obtain ⟨text, hr⟩ := Reported.some e.message
    exact ⟨_, .malformedPath hp hr⟩
  | ok p =>
    by_cases hn : data = .null ∨ type = .null
    · exact ⟨_, .nullArgument hp hn⟩
    by_cases htype : ∀ t, type ≠ .ofText t
    · obtain ⟨e, he⟩ := SqlValue.asText_of_not_text htype 1
      obtain ⟨text, hr⟩ := Reported.some (e.message c.codec)
      exact ⟨_, .noType hp hn htype he hr⟩
    obtain ⟨t, rfl⟩ : ∃ t, type = .ofText t := by simpa using htype
    by_cases hd : ∃ b, data = .blob b ∨ data = .text b
    · obtain ⟨b, hd⟩ := hd
      cases hx : c.registry.extractText c.config.warnOnUnsigned b t s with
      | ok x => exact ⟨_, .value hp hd hx (SqlValue.stands_iff.mpr rfl)⟩
      | error e =>
        obtain ⟨text, hr⟩ := Reported.some (e.message c.codec)
        exact ⟨_, .error hp hd hx hr⟩
    · exact ⟨_, .noData hp (fun h => hn (.inl h)) (fun b h => hd ⟨b, .inl h⟩) (fun b h => hd ⟨b, .inr h⟩)⟩

/-- Every call ends by one of the rules, and in one way only. A null path is null before all else, and a path that is
malformed is reported before data and type are looked at. With all three arguments of the right types a call gives what
the core gives for the text of the path, and fails with the text that the core fails with, unless that is lost. -/
theorem extract_iff_gives (c : Connection) (data type path : SqlValue) (o : Outcome SqlValue) :
    c.extract data type path = o ↔ c.Gives data type path o := by
  constructor
  · rintro rfl
    obtain ⟨o, h⟩ := c.gives_some data type path
    rwa [extract_of_gives h]
  · exact extract_of_gives

/-- What the core says of a path with a zero character in it does not come through. -/
theorem zero_character_is_lost :
    let e := PathError.unexpected "$\x00" 1 "\x00"
    Path.parse "$\x00" = .error e ∧ e.message = "Invalid path '$\x00': unexpected '\x00' at offset 1" ∧
      ({} : Connection).extract .null .null (.ofText "$\x00") = ⟨.error "constraint failed", []⟩ := by
  have hp : Path.parse "$\x00" = .error (.unexpected "$\x00" 1 "\x00") := by cbv
  exact ⟨hp, by decide, extract_of_gives (.malformedPath hp (.lost (by decide)))⟩

end Connection

end WireQuery
