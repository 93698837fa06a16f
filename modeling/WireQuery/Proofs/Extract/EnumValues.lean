import WireQuery.Proofs.Extract.Composition
import WireQuery.Proofs.Registry.Listing

namespace WireQuery

namespace Node

variable {p : Pool}

theorem enum_of_ofValue (h : ofValue p kind v = .enum n e) : e ∈ p.enums := by
  unfold ofValue at h
  split at h
  · next name m =>
    cases hm : p.message? name <;> simp [hm] at h
  · next name k =>
    cases he : p.enum? name with
    | none => simp [he] at h
    | some d =>
      simp only [he, Option.map_some, Option.getD_some, Node.enum.injEq] at h
      exact h.2 ▸ (Pool.enum?_mem he).1
  · contradiction

theorem enum_of_next? (h : next? p node step = some (.enum n e)) : e ∈ p.enums := by
  unfold next? at h
  split at h
  · obtain ⟨f, -, ⟨vs, hv⟩ | hv | hv⟩ := field_cases (ok_of_toOption h)
    · contradiction
    · exact enum_of_ofValue hv.symm
    · contradiction
  · next f items i =>
    have hi := ok_of_toOption h
    unfold Node.index at hi
    split at hi
    · exact enum_of_ofValue (Except.ok.inj hi)
    · contradiction
  · contradiction

/-- The type of an enum value on which a walk ends is one of the pool. -/
theorem enum_of_follow? (h : follow? p (.message ty m) steps = some (.enum n e)) : e ∈ p.enums := by
  rcases List.eq_nil_or_concat steps with rfl | ⟨before, last, rfl⟩
  · simp [follow?] at h
  · rw [follow?, List.concat_eq_append, List.foldlM_append] at h
    obtain ⟨node, -, h⟩ := Option.bind_eq_some_iff.mp h
    rw [List.foldlM_cons] at h
    obtain ⟨next, hn, h⟩ := Option.bind_eq_some_iff.mp h
    obtain rfl := Option.some.inj h
    exact enum_of_next? hn

end Node

namespace Registry

/-- The node that a path reaches in some bytes. -/
def node? (r : Registry) (b : Bytes) (type : String) (path : Path) : Option Node :=
  match r.message? type with
  | .error _ => none
  | .ok t => (t.pool.read? t.definition b).bind (fun m => Node.follow? t.pool (.message t.definition m) path.steps)

/-- Further steps start from the node that a path reaches. -/
theorem extract_of_node? {r : Registry} (h : r.node? b type path = some node) (warn : Bool) (rest : List Step) :
    ∃ t, r.message? type = .ok t ∧ (∃ m, Node.follow? t.pool (.message t.definition m) path.steps = some node) ∧
      r.extract warn b type ⟨path.steps ++ rest⟩ = (Walk.mk t.pool type ⟨path.steps ++ rest⟩ warn).go node rest := by
  unfold node? at h
  split at h
  · contradiction
  · next t ht =>
    obtain ⟨m, hread, hfollow⟩ := Option.bind_eq_some_iff.mp h
    refine ⟨t, ht, ⟨m, hfollow⟩, ?_⟩
    rw [extract_of_read ht hread]
    exact Walk.go_follow (w := ⟨t.pool, type, _, warn⟩) hfollow rest

/-- The first name of a number, if any, names one declaration only. -/
theorem find?_of_nameFor? {e : EnumDef} (hn : (e.values.map (·.name)).Nodup) (h : e.nameFor? number = some s) :
    e.values.find? (·.name = s) = some ⟨number, s⟩ := by
  obtain ⟨v, hv, rfl⟩ := Option.map_eq_some_iff.mp h
  have hnumber : v.number = number := by simpa using List.find?_some hv
  rw [← hnumber]
  exact find?_of_nodup hn (List.mem_of_find?_eq_some hv)

/-- Where a walk ends on an enum value, the enum is registered, the path and its number give the number of the value,
and its name gives the first name that is listed for that number. There is an error only if none is listed, and the name
is listed for that number alone. -/
theorem enum_value_as_listed (h : (empty.run history).node? b type path = some (.enum n e)) (warn : Bool) :
    let r := empty.run history
    (∃ u, r.enum? e.name = .ok u) ∧
    r.extract warn b type path = .ok ⟨.integer n.toInt64, []⟩ ∧
    r.extract warn b type (path.field "number") = .ok ⟨.integer n.toInt64, []⟩ ∧
    ∃ vs, r.listEnum e.name (.number n) = .ok vs ∧
      (∀ s, r.extract warn b type (path.field "name") = .ok ⟨.text s, []⟩ ↔ vs.head?.map (·.name) = some s) ∧
      (r.extract warn b type (path.field "name") = .error (.unknownEnumValue n e.name) ↔ vs = []) ∧
      ∀ s, r.extract warn b type (path.field "name") = .ok ⟨.text s, []⟩ →
        r.listEnum e.name (.name s) = .ok [⟨n, s⟩] := by
  intro r
  obtain ⟨t, ht, ⟨m, hfollow⟩, hroot⟩ := extract_of_node? h warn []
  obtain ⟨_, _, _, -, -, -, hp, -⟩ := origin_of_message? ht
  have he : e ∈ t.pool.enums := Node.enum_of_follow? hfollow
  have hnames := hp.nodup_values he
  obtain ⟨u, hu, -⟩ := hp.enum? he
  have hname : r.extract warn b type (path.field "name") =
      (e.nameFor? n).elim (.error (.unknownEnumValue n e.name)) (fun s => .ok ⟨.text s, []⟩) := by
    obtain ⟨_, -, -, hname⟩ := extract_of_node? h warn [.field "name"]
    refine hname.trans ?_
    rw [Walk.go, Walk.accessor]
    cases e.nameFor? n <;> rfl
  have hvalues : r.listEnum e.name (.number n) = .ok (e.values.filter (·.number = n)) := by
    rw [hp.listEnum he, EnumType.list, EnumType.valuesFor_ofValues]
  have hhead : (e.values.filter (·.number = n)).head?.map (·.name) = e.nameFor? n := by
    rw [List.head?_filter]
    rfl
  refine ⟨⟨u, hu⟩, ?_, ?_, _, hvalues, ?_, ?_, ?_⟩
  · rwa [List.append_nil] at hroot
  · obtain ⟨_, -, -, hnumber⟩ := extract_of_node? h warn [.field "number"]
    exact hnumber
  · intro s
    rw [hname, hhead]
    cases e.nameFor? n <;> simp
  · rw [hname, ← List.head?_eq_none_iff, ← Option.map_eq_none_iff, hhead]
    cases e.nameFor? n <;> simp
  · intro s hs
    have hfirst : e.nameFor? n = some s := by
      rw [hname] at hs
      cases hf : e.nameFor? n <;> simp_all
    rw [hp.listEnum he, EnumType.list, EnumType.valueNamed?_ofValues, find?_of_nameFor? hnames hfirst]
    rfl

theorem color_reached : (Pool.decode? (FileDecl.writeBundle [Samples.walls])).any (fun p =>
    (p.message? "Wall").any (fun ty => !ty.mapEntry &&
      ((p.read? ty [8, 2]).bind (fun m => Node.follow? p (.message ty m) [.field "color"])).any (fun node =>
        match node with
        | .enum n e => n = 2 && e.name = "Color"
        | _ => false))) = true := by cbv

theorem colors_listed :
    (empty.run [.load .allow (.memory (FileDecl.writeBundle [Samples.walls]))]).listEnum "Color" .all =
      .ok [⟨1, "RED"⟩, ⟨2, "BLUE"⟩] := by decide +kernel

/-- The name of the color is the one that is listed for its number, and is listed itself. -/
theorem blue_as_listed :
    let r := empty.run [.load .allow (.memory (FileDecl.writeBundle [Samples.walls]))]
    ∃ e, r.node? [8, 2] "Wall" ⟨[.field "color"]⟩ = some (.enum 2 e) ∧ e.name = "Color" ∧
      r.extract false [8, 2] "Wall" ⟨[.field "color"]⟩ = .ok ⟨.integer 2, []⟩ ∧
      r.extract false [8, 2] "Wall" ⟨[.field "color", .field "number"]⟩ = .ok ⟨.integer 2, []⟩ ∧
      r.listEnum "Color" (.number 2) = .ok [⟨2, "BLUE"⟩] ∧
      r.extract false [8, 2] "Wall" ⟨[.field "color", .field "name"]⟩ = .ok ⟨.text "BLUE", []⟩ ∧
      r.listEnum "Color" (.name "BLUE") = .ok [⟨2, "BLUE"⟩] := by
  intro r
  have hlist : r.listEnum "Color" (.number 2) = .ok [⟨2, "BLUE"⟩] := by
    rw [listEnum_eq_filter, colors_listed]
    rfl
  obtain ⟨p, hp, h⟩ := (Option.any_eq_true _ _).mp color_reached
  obtain ⟨ty, hty, h⟩ := (Option.any_eq_true _ _).mp h
  obtain ⟨hentry, h⟩ := (Bool.and_eq_true _ _).mp h
  obtain ⟨node, hnode, h⟩ := (Option.any_eq_true _ _).mp h
  cases node with
  | enum n e =>
    simp only [Bool.and_eq_true, decide_eq_true_eq] at h
    obtain ⟨rfl, he⟩ := h
    have hreached : r.node? [8, 2] "Wall" ⟨[.field "color"]⟩ = some (.enum 2 e) := by
      unfold node?
      rw [message?_first hp hty (by simpa using hentry)]
      exact hnode
    obtain ⟨-, hvalue, hnumber, vs, hvs, hfirst, -, hlisted⟩ := enum_value_as_listed hreached false
    rw [he] at hvs hlisted
    obtain rfl : vs = [⟨2, "BLUE"⟩] := Except.ok.inj (hvs.symm.trans hlist)
    have hname := (hfirst "BLUE").mpr rfl
    exact ⟨e, hreached, he, hvalue, hnumber, hlist, hname, hlisted "BLUE" hname⟩
  | _ => contradiction

end Registry

end WireQuery
