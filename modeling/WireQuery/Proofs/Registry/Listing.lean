import WireQuery.Proofs.Registry.Closed
import WireQuery.Proofs.Schema.Enums

namespace WireQuery

/-- Whether a filter asks for a declaration. -/
def EnumFilter.admits : EnumFilter → EnumValue → Bool
  | .all, _ => true
  | .number n, v => v.number = n
  | .name s, v => v.name = s

/-- Where all keys differ, what a search finds is all there is of its key. -/
theorem toList_find?_of_nodup [DecidableEq β] {key : α → β} {xs : List α} (h : (xs.map key).Nodup) (k : β) :
    (xs.find? (fun x => key x = k)).toList = xs.filter (fun x => key x = k) := by
  induction xs with
  | nil => rfl
  | cons x xs ih =>
    rw [List.map_cons, List.nodup_cons] at h
    by_cases hx : key x = k
    · have hnone : xs.filter (fun y => key y = k) = [] := by
        rw [List.filter_eq_nil_iff]
        intro y hy hk
        exact h.1 (List.mem_map.mpr ⟨y, hy, (of_decide_eq_true hk).trans hx.symm⟩)
      simp [hx, hnone]
    · simp [hx, ih h.2]

theorem EnumType.list_ofValues (name : String) {values : List EnumValue} (h : (values.map (·.name)).Nodup)
    (filter : EnumFilter) : (ofValues name values).list filter = values.filter filter.admits := by
  cases filter with
  | all => exact (List.filter_eq_self.mpr (fun _ _ => rfl)).symm
  | number n => exact valuesFor_ofValues name values n
  | name s =>
    rw [list, valueNamed?_ofValues]
    exact toList_find?_of_nodup h s

namespace Registry

theorem Accepted.nodup_values (hp : Accepted history p) (he : e ∈ p.enums) : (e.values.map (·.name)).Nodup := by
  cases hp with
  | intro _ _ hp => exact Pool.nodup_of_decode? hp he

/-- An enum of an accepted bundle is listed by its declarations there. -/
theorem Accepted.listEnum (hp : Accepted history p) (he : e ∈ p.enums) (filter : EnumFilter) :
    (empty.run history).listEnum e.name filter = .ok ((EnumType.ofValues e.name e.values).list filter) := by
  obtain ⟨u, hu, hname, hvalues⟩ := hp.enum? he
  rw [Registry.listEnum, hu, ← hname, ← hvalues, ← ofValues_of_enum? hu]
  rfl

theorem nodup_of_enum? (h : (empty.run history).enum? name = .ok e) : (e.values.map (·.name)).Nodup := by
  obtain ⟨gate, source, horigin, halone⟩ := origin_of_get? (enum?_ok.mp h)
  obtain ⟨p, hp, hget⟩ := horigin.pool
  rcases Pool.mem_descriptors.mp (List.mem_of_find?_eq_some ((hget name).symm.trans halone)) with
    ⟨ty, -, -, hd⟩ | ⟨d, hd, he⟩
  · contradiction
  · rw [TypeDescriptor.enum.inj he]
    exact hp.nodup_values hd

/-- A filter keeps of a registered enum's declarations those that it asks for. -/
theorem list_of_enum? (h : (empty.run history).enum? name = .ok e) (filter : EnumFilter) :
    e.list filter = e.values.filter filter.admits := by
  conv => lhs; rw [ofValues_of_enum? h]
  exact EnumType.list_ofValues e.name (nodup_of_enum? h) filter

theorem listEnum_eq_filter (history : List Request) (name : String) (filter : EnumFilter) :
    (empty.run history).listEnum name filter =
      ((empty.run history).listEnum name .all).map (·.filter filter.admits) := by
  unfold listEnum
  cases he : (empty.run history).enum? name with
  | error d => rfl
  | ok u => exact congrArg Except.ok (list_of_enum? he filter)

/-- The indexes of an enum type find what a search through its declarations finds, for all lists of declarations, and no
position in them is out of range. So a filter gives those of all declarations that it asks for, of every name that is
registered and after every run of requests. -/
theorem indexes_agree_with_scan (name : String) (values : List EnumValue) (history : List Request) (enum : String) :
    let e := EnumType.ofValues name values
    e.values = values ∧
    (∀ number, e.valuesFor number = values.filter (·.number = number) ∧
      e.firstNameFor? number = (values.find? (·.number = number)).map (·.name)) ∧
    (∀ s, e.valueNamed? s = values.find? (·.name = s)) ∧
    (∀ (number : Int32) positions, e.byNumber[number]? = some positions →
      ∀ i ∈ positions, ∃ v, values[i]? = some v ∧ v.number = number) ∧
    (∀ (s : String) i, e.byName[s]? = some i → ∃ v, values[i]? = some v ∧ v.name = s) ∧
    ∀ filter, (empty.run history).listEnum enum filter =
      ((empty.run history).listEnum enum .all).map (·.filter filter.admits) := by
  intro e
  refine ⟨rfl, fun number => ⟨EnumType.valuesFor_ofValues name values number,
    EnumType.firstNameFor?_ofValues name values number⟩, EnumType.valueNamed?_ofValues name values, ?_, ?_, ?_⟩
  · intro number positions hp i hi
    apply EnumType.declared_of_position
    rwa [Std.HashMap.getD_eq_getD_getElem?, show (EnumType.indexNumbers values)[number]? = some positions from hp]
  · intro s i hi
    exact EnumType.declared_of_namePosition hi
  · intro filter
    exact listEnum_eq_filter history enum filter

end Registry

end WireQuery
