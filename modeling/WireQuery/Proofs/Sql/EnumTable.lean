import WireQuery.Proofs.Registry.Listing
import WireQuery.Sql.EnumTable

namespace WireQuery

namespace SqlValue

theorem eq_of_datum?_integer {v : SqlValue} (h : v.datum? = some (.integer i)) : v = integer i := by
  cases v <;> simp_all [datum?]

theorem eq_of_datum?_text {v : SqlValue} (h : v.datum? = some (.text s)) : v = ofText s := by
  cases v with
  | text b =>
    obtain ⟨t, ht, he⟩ := Option.map_eq_some_iff.mp h
    cases he
    rw [Utf8.eq_encode_of_decode? ht, ofText]
  | _ => simp [datum?] at h

end SqlValue

/-- Whether a declaration meets the conditions on its number and its name. -/
def EnumQuery.admits (q : EnumQuery) (v : EnumValue) : Bool :=
  q.number.all (·.equalsNumber v.number.toInt) && q.name.all (·.equalsText v.name)

/-- A row without its place in the listing. -/
def EnumRow.declared (row : EnumRow) : EnumValue × String := (⟨row.number, row.name⟩, row.enum)

namespace EnumPlan

variable {v : EnumValue} {x : SqlValue}

/-- A number equal to that of a declaration is in the range of such numbers, and finds the declaration. -/
theorem byNumber_admits (h : x.equalsNumber v.number.toInt = true) :
    ∃ f, byNumber.filter? x.datum? = some f ∧ f.admits v = true := by
  cases hx : x.datum? with
  | none => exact ⟨.all, rfl, rfl⟩
  | some d =>
    cases d with
    | integer i =>
      rw [SqlValue.eq_of_datum?_integer hx, SqlValue.equalsNumber_integer] at h
      have hl := v.number.le_toInt
      have hu := v.number.toInt_lt
      have hnumber : v.number = i.toInt32 := by
        apply Int32.toInt_inj.mp
        rw [Int64.toInt_toInt32, h, Int.bmod_eq_of_le (by omega) (by omega)]
      refine ⟨.number i.toInt32, ?_, by simpa [EnumFilter.admits] using hnumber⟩
      rw [filter?, if_pos (by omega)]
    | _ => exact ⟨.all, rfl, rfl⟩

theorem byName_admits (h : x.equalsText v.name = true) :
    ∃ f, byName.filter? x.datum? = some f ∧ f.admits v = true := by
  cases hx : x.datum? with
  | none => exact ⟨.all, rfl, rfl⟩
  | some d =>
    cases d with
    | text s =>
      rw [SqlValue.eq_of_datum?_text hx, SqlValue.equalsText_ofText] at h
      exact ⟨.name s, rfl, by simp [EnumFilter.admits, h]⟩
    | _ => exact ⟨.all, rfl, rfl⟩

end EnumPlan

namespace EnumQuery

variable {q : EnumQuery}

/-- The declarations of an enum, with an equality for the number, for the name, for both or for none. -/
def equalities (enum : SqlValue) (number name : Option SqlValue) : EnumQuery := { enum := some enum, number, name }

theorem filter_admits_all (enum : SqlValue) (vs : List EnumValue) :
    vs.filter (equalities enum none none).admits = vs := List.filter_eq_self.mpr (fun _ _ => rfl)

theorem key_read (h : ∀ v, q.key = some v → v.datum?.isSome) :
    q.key.mapM EnumCursor.argument = .ok (q.key.bind SqlValue.datum?) := by
  cases hk : q.key with
  | none => rfl
  | some v =>
    obtain ⟨d, hd⟩ := Option.isSome_iff_exists.mp (h v hk)
    simp [EnumCursor.argument, hd, Functor.map, Except.map]

/-- Only a value that is malformed text cannot be read. -/
theorem key_inv (q : EnumQuery) :
    (∃ v, q.key = some v ∧ v.datum? = none ∧ q.key.mapM EnumCursor.argument = .error .aborted) ∨
      (∀ v, q.key = some v → v.datum?.isSome) ∧
        q.key.mapM EnumCursor.argument = .ok (q.key.bind SqlValue.datum?) := by
  by_cases h : ∀ v, q.key = some v → v.datum?.isSome
  · exact .inr ⟨h, key_read h⟩
  · simp only [not_forall, Option.not_isSome_iff_eq_none] at h
    obtain ⟨v, hk, hv⟩ := h
    exact .inl ⟨v, hk, hv, by simp [hk, EnumCursor.argument, hv, Functor.map, Except.map]⟩

/-- No plan leaves out what the conditions admit. -/
theorem filter_of_admits {v : EnumValue} (h : q.admits v = true) :
    ∃ f, q.plan.filter? (q.key.bind SqlValue.datum?) = some f ∧ f.admits v = true := by
  obtain ⟨hnumber, hname⟩ := (Bool.and_eq_true _ _).mp h
  unfold key plan
  cases hn : q.name with
  | some x =>
    rw [hn] at hname
    exact EnumPlan.byName_admits hname
  | none =>
    cases hm : q.number with
    | some x =>
      rw [hm] at hnumber
      exact EnumPlan.byNumber_admits hnumber
    | none => exact ⟨.all, rfl, rfl⟩

end EnumQuery

namespace EnumCursor

theorem enumName_ofText (s : String) : enumName (.ofText s) = .ok s := by
  simp [enumName, argument, SqlValue.datum?, SqlValue.ofText, Utf8.decode?_encode, bind, Except.bind]

theorem enumName_malformed {v : SqlValue} (h : v.datum? = none) : enumName v = .error .aborted := by
  simp [enumName, argument, h, bind, Except.bind]

/-- Only text names an enum, and only malformed text is no error. -/
theorem enumName_inv (v : SqlValue) : (v.datum? = none ∧ enumName v = .error .aborted) ∨
    (∃ s, v = .ofText s ∧ enumName v = .ok s) ∨ ∃ d e, v.datum? = some d ∧ enumName v = .error (.reported e) := by
  cases hd : v.datum? with
  | none => exact .inl ⟨rfl, enumName_malformed hd⟩
  | some d =>
    cases d with
    | text s =>
      obtain rfl := SqlValue.eq_of_datum?_text hd
      exact .inr (.inl ⟨s, rfl, enumName_ofText s⟩)
    | _ =>
      have hn : enumName v =
          .error (.reported (.argument "protobuf_enum" ("enum type name must be TEXT, got " ++ v.typeName))) := by
        rw [enumName, argument, hd]
        rfl
      exact .inr (.inr ⟨_, _, rfl, hn⟩)

theorem rowsUpTo_eq (n : Nat) (c : EnumCursor) :
    rowsUpTo n c = ((c.values.zipIdx.drop c.position).take n).map (fun x => c.rowAt x.2 x.1) := by
  induction n generalizing c with
  | zero => simp [rowsUpTo]
  | succ n ih =>
    rw [rowsUpTo, row?]
    cases hv : c.values[c.position]? with
    | none =>
      have hl := List.getElem?_eq_none_iff.mp hv
      simp [List.drop_eq_nil_of_le, hl]
    | some v =>
      obtain ⟨hl, rfl⟩ := List.getElem?_eq_some_iff.mp hv
      rw [List.drop_eq_getElem_cons (by simpa using hl), List.take_succ_cons, List.map_cons, Option.map_some, ih]
      simp [next, rowAt]

/-- Stepping through a new listing gives each declaration with its place. -/
theorem rows_eq (enum : String) (values : List EnumValue) :
    rows ⟨enum, values, 0⟩ = values.zipIdx.map (fun x => rowAt ⟨enum, values, 0⟩ x.2 x.1) := by
  rw [rows, rowsUpTo_eq, List.drop_zero, List.take_of_length_le (by simp)]

/-- The conditions leave the rows of those declarations that they admit. -/
theorem declared_rows (enum : String) (values : List EnumValue) {q : EnumQuery} (hl : q.least = none)
    (hr : q.rowid = none) :
    ((rows ⟨enum, values, 0⟩).filter q.accepts).map EnumRow.declared = (values.filter q.admits).map (·, enum) := by
  have haccepts (x : EnumValue × Nat) : q.accepts (rowAt ⟨enum, values, 0⟩ x.2 x.1) = q.admits x.1 := by
    simp [EnumQuery.accepts, EnumQuery.admits, rowAt, hl, hr]
  calc ((rows ⟨enum, values, 0⟩).filter q.accepts).map EnumRow.declared
      = (values.zipIdx.filter (fun x => q.admits x.1)).map (fun x => (x.1, enum)) := by
        simp only [rows_eq, List.filter_map, List.map_map, Function.comp_def, haccepts]
        rfl
    _ = ((values.zipIdx.map (·.1)).filter q.admits).map (·, enum) := by
        rw [List.filter_map, List.map_map]
        rfl
    _ = (values.filter q.admits).map (·, enum) := by rw [List.zipIdx_map_fst]

end EnumCursor

namespace Registry

/-- What a plan looks up is, as far as the conditions admit it, all that they admit. -/
theorem filter_looked_up (h : (empty.run history).enum? name = .ok e) (q : EnumQuery) :
    (((q.plan.filter? (q.key.bind SqlValue.datum?)).map e.list).getD []).filter q.admits = e.values.filter q.admits := by
  cases hf : q.plan.filter? (q.key.bind SqlValue.datum?) with
  | none =>
    have hnone : e.values.filter q.admits = [] := by
      rw [List.filter_eq_nil_iff]
      intro v _ hv
      obtain ⟨f, hf', -⟩ := EnumQuery.filter_of_admits hv
      rw [hf] at hf'
      contradiction
    simp [hnone]
  | some f =>
    rw [Option.map_some, Option.getD_some, list_of_enum? h, List.filter_filter]
    apply List.filter_congr
    intro v _
    cases hv : q.admits v with
    | false => simp
    | true =>
      obtain ⟨g, hg, hadmits⟩ := EnumQuery.filter_of_admits hv
      rw [hf] at hg
      cases hg
      simp [hadmits]

/-- Where the cursor stood does not matter. A null enum has no rows; any other is read as a name first, then the value to
look up is read, then the enum is looked for. -/
theorem enumRows_eq (r : Registry) (c : EnumCursor) {q : EnumQuery} (h : q.enum = some enum) :
    r.enumRows c q = (if enum = .null then .ok [] else do
      let s ← EnumCursor.enumName enum
      let key ← q.key.mapM EnumCursor.argument
      match r.enum? s with
      | .error e => .error (.reported (.failed e))
      | .ok e => .ok ((EnumCursor.rows ⟨s, ((q.plan.filter? key).map e.list).getD [], 0⟩).filter q.accepts)) := by
  unfold enumRows EnumCursor.start
  rw [h]
  dsimp only
  split
  · rfl
  · cases EnumCursor.enumName enum with
    | error e => rfl
    | ok s =>
      cases q.key.mapM EnumCursor.argument with
      | error e => rfl
      | ok key =>
        simp only [bind, Except.bind]
        cases r.enum? s <;> rfl

theorem ofText_of_enumName (h : EnumCursor.enumName v = .ok s) : v = .ofText s := by
  obtain ⟨-, hv⟩ | ⟨t, rfl, hv⟩ | ⟨_, _, -, hv⟩ := EnumCursor.enumName_inv v
  · simp [hv] at h
  · rw [← Except.ok.inj (hv.symm.trans h)]
  · simp [hv] at h

/-- However it is planned, a query gives the declarations that are listed for its enum and meet its conditions. -/
theorem declared_enumRows (history : List Request) (c : EnumCursor) {q : EnumQuery} (h : q.enum = some enum)
    (hl : q.least = none) (hr : q.rowid = none)
    (hk : ∀ s v, enum = .ofText s → q.key = some v → v.datum?.isSome) :
    ((empty.run history).enumRows c q).map (·.map EnumRow.declared) =
      if enum = .null then .ok [] else (EnumCursor.enumName enum).bind (fun s =>
        (((empty.run history).listEnum s .all).map (fun vs => (vs.filter q.admits).map (·, s))).mapError
          (fun e => .reported (.failed e))) := by
  rw [enumRows_eq _ c h]
  split
  · rfl
  · cases hs : EnumCursor.enumName enum with
    | error e => rfl
    | ok s =>
      rw [EnumQuery.key_read (fun v => hk s v (ofText_of_enumName hs))]
      simp only [bind, Except.bind, listEnum]
      cases hu : (empty.run history).enum? s with
      | error e => rfl
      | ok e =>
        simp only [Except.map, Except.mapError, EnumType.list]
        rw [EnumCursor.declared_rows s _ hl hr, filter_looked_up hu]

theorem error_iff_of_map {x : Except ε α} {y : Except ε β} {f : α → γ} {g : β → γ} (h : x.map f = y.map g) (e : ε) :
    x = .error e ↔ y = .error e := by
  cases x <;> cases y <;> simp_all [Except.map]

/-- Without conditions it gives all that is listed. -/
theorem declared_listing (history : List Request) (enum : SqlValue) :
    ((empty.run history).enumRows {} (.equalities enum none none)).map (·.map EnumRow.declared) =
      if enum = .null then .ok [] else (EnumCursor.enumName enum).bind (fun s =>
        (((empty.run history).listEnum s .all).map (·.map (·, s))).mapError (fun e => .reported (.failed e))) := by
  have h := declared_enumRows history {} (q := .equalities enum none none) rfl rfl rfl (by
    intro s v _ hv
    contradiction)
  simpa only [EnumQuery.filter_admits_all] using h

/-- The conditions can as well be tested on the rows of the whole listing. -/
theorem declared_enumRows_filter (history : List Request) (c : EnumCursor) {enum : SqlValue}
    {number name : Option SqlValue} (hk : ∀ s v, enum = .ofText s →
      (EnumQuery.equalities enum number name).key = some v → v.datum?.isSome) :
    ((empty.run history).enumRows c (.equalities enum number name)).map (·.map EnumRow.declared) =
      ((empty.run history).enumRows {} (.equalities enum none none)).map (fun rows =>
        (rows.map EnumRow.declared).filter (fun d => (EnumQuery.equalities enum number name).admits d.1)) := by
  have hmap (all : Except (Halt SqlError) (List EnumRow)) (keep : EnumValue × String → Bool) :
      all.map (fun rows => (rows.map EnumRow.declared).filter keep) =
        (all.map (·.map EnumRow.declared)).map (·.filter keep) := by
    cases all <;> rfl
  rw [hmap, declared_listing, declared_enumRows history c rfl rfl rfl hk]
  split
  · rfl
  · cases EnumCursor.enumName enum with
    | error e => rfl
    | ok s =>
      simp only [Except.bind]
      cases (empty.run history).listEnum s .all with
      | error e => rfl
      | ok vs =>
        simp only [Except.map, Except.mapError, List.filter_map]
        rfl

/-- Malformed text takes the process down where it names the enum, and where it is to be looked up in one that has a
name, be it known or not. -/
theorem enumRows_aborted_iff (r : Registry) (c : EnumCursor) {q : EnumQuery} (h : q.enum = some enum) :
    r.enumRows c q = .error .aborted ↔
      enum.datum? = none ∨ ∃ s v, enum = .ofText s ∧ q.key = some v ∧ v.datum? = none := by
  rw [enumRows_eq r c h]
  obtain ⟨hd, hn⟩ | ⟨s, rfl, hn⟩ | ⟨d, e, hd, hn⟩ := EnumCursor.enumName_inv enum
  · have hnull : enum ≠ .null := by
      rintro rfl
      contradiction
    simp [hnull, hd, hn, bind, Except.bind]
  · rw [if_neg (by simp [SqlValue.ofText]), hn]
    obtain ⟨v, hk, hv, hread⟩ | ⟨hk, hread⟩ := EnumQuery.key_inv q
    · exact iff_of_true (by rw [hread]; rfl) (.inr ⟨s, v, rfl, hk, hv⟩)
    · refine iff_of_false ?_ ?_
      · rw [hread]
        simp only [bind, Except.bind]
        cases r.enum? s <;> simp
      · rintro (hnone | ⟨_, v, -, hkey, hv⟩)
        · simp [SqlValue.ofText, SqlValue.datum?, Utf8.decode?_encode] at hnone
        · simpa [hv] using hk v hkey
  · refine iff_of_false ?_ ?_
    · split
      · simp
      · simp [hn, bind, Except.bind]
    · rintro (hnone | ⟨s, v, rfl, -, -⟩)
      · rw [hd] at hnone
        contradiction
      · rw [EnumCursor.enumName_ofText] at hn
        contradiction

/-- However it is planned, a query gives the rows of the whole listing that meet its conditions, in their order, and
ends as the whole listing does where that has none, wherever the cursor stood. The whole listing of a name is what is
listed for it. Malformed text alone takes the process down: as an enum, which the whole listing does not survive either,
and as the value that is looked up in a named one. -/
theorem enum_plans_agree (history : List Request) (c : EnumCursor) (enum : SqlValue) (number name : Option SqlValue) :
    let r := empty.run history
    let q := EnumQuery.equalities enum number name
    let all := r.enumRows {} (.equalities enum none none)
    ((∀ s v, enum = .ofText s → q.key = some v → v.datum?.isSome) →
      (r.enumRows c q).map (·.map EnumRow.declared) =
        all.map (fun rows => (rows.map EnumRow.declared).filter (fun d => q.admits d.1)) ∧
      ∀ halt, r.enumRows c q = .error halt ↔ all = .error halt) ∧
    (∀ s, enum = .ofText s →
      all.map (·.map EnumRow.declared) =
        ((r.listEnum s .all).map (·.map (·, s))).mapError (fun e => .reported (.failed e))) ∧
    (r.enumRows c q = .error .aborted ↔
      enum.datum? = none ∨ ∃ s v, enum = .ofText s ∧ q.key = some v ∧ v.datum? = none) := by
  intro r q all
  refine ⟨?_, ?_, enumRows_aborted_iff r c rfl⟩
  · intro hkey
    have hsame := declared_enumRows_filter history c hkey
    exact ⟨hsame, error_iff_of_map hsame⟩
  · rintro s rfl
    have hall := declared_listing history (.ofText s)
    rw [if_neg (by simp [SqlValue.ofText]), EnumCursor.enumName_ofText] at hall
    exact hall

/-- A lookup of a name that is malformed text equals none of an enum's, and should give no rows, but it takes the process
down; so does one of a number, and one in an enum that is unknown. -/
theorem malformed_lookup_aborts :
    let r := empty.run [.load .allow (.memory (FileDecl.writeBundle [Samples.enums]))]
    let byName (enum : String) := EnumQuery.equalities (.ofText enum) none (some (.text [0xff]))
    let byNumber := EnumQuery.equalities (.ofText "TestEnum") (some (.text [0xff])) none
    r.enumRows {} (byName "TestEnum") = .error .aborted ∧ r.enumRows {} byNumber = .error .aborted ∧
      (r.enumRows {} (.equalities (.ofText "TestEnum") none none)).map (·.map EnumRow.declared) =
        .ok [(⟨3, "A"⟩, "TestEnum"), (⟨2, "B"⟩, "TestEnum"), (⟨1, "C"⟩, "TestEnum")] ∧
      [⟨3, "A"⟩, ⟨2, "B"⟩, ⟨1, "C"⟩].filter (byName "TestEnum").admits = [] ∧
      [⟨3, "A"⟩, ⟨2, "B"⟩, ⟨1, "C"⟩].filter byNumber.admits = [] ∧
      r.enumRows {} (byName "Nope") = .error .aborted ∧
      r.enumRows {} (.equalities (.ofText "Nope") none none) =
        .error (.reported (.failed (.unknownType .enum "Nope"))) := by
  decide +kernel

end Registry

end WireQuery
