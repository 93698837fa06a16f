import WireQuery.Proofs.Registry.Run

namespace WireQuery

namespace Registry

/-- Each type is held once, under its own name. -/
structure Keyed (r : Registry) : Prop where
  nodup : (r.types.map (·.1)).Nodup
  named : ∀ t ∈ r.types, t.2.name = t.1

theorem empty_keyed : empty.Keyed := ⟨List.nodup_nil, by intro t ht; contradiction⟩

theorem mem_keys {r : Registry} : name ∈ r.types.map (·.1) ↔ (r.get? name).isSome := by
  rw [Option.isSome_iff_ne_none]
  unfold get?
  rw [Ne, List.lookup_eq_none_iff]
  simp

theorem Keyed.add {r : Registry} (h : r.Keyed) (report : LoadReport) (d : TypeDescriptor) :
    (r.add report d).1.Keyed := by
  unfold Registry.add
  cases hg : r.get? d.name with
  | some known => exact h
  | none =>
    have hfree : d.name ∉ r.types.map (·.1) := by
      rw [mem_keys, hg]
      exact Bool.false_ne_true
    constructor
    · change ((r.types ++ [(d.name, d)]).map (·.1)).Nodup
      rw [List.map_append]
      exact h.nodup.append (List.nodup_singleton _) (List.disjoint_singleton.mpr hfree)
    · intro t ht
      rcases List.mem_append.mp ht with ht | ht
      · exact h.named t ht
      · rw [List.mem_singleton.mp ht]

theorem Keyed.addAll {r : Registry} (h : r.Keyed) (ds : List TypeDescriptor) : (r.addAll ds).1.Keyed := by
  induction ds using List.reverseRecOn with
  | nil => exact h
  | append_singleton ds d ih =>
    rw [addAll_concat]
    exact ih.add _ d

theorem Keyed.loadFrom {r : Registry} (h : r.Keyed) (gate : Gate) (source : BundleSource) :
    (r.loadFrom gate source).registry.Keyed := by
  have hl := loadFrom_loads r gate source
  generalize r.loadFrom gate source = l at hl
  cases hl with
  | accepted _ _ _ _ => exact h.addAll _
  | _ => exact h

theorem Keyed.run {r : Registry} (h : r.Keyed) (requests : List Request) : (r.run requests).Keyed := by
  induction requests generalizing r with
  | nil => exact h
  | cons q qs ih =>
    cases q with
    | load gate source => exact ih (h.loadFrom gate source)
    | _ => exact ih h

namespace Keyed

variable {r s : Registry}

theorem get?_iff (h : r.Keyed) : r.get? name = some d ↔ (name, d) ∈ r.types := by
  unfold get?
  rw [List.lookup_eq_some_iff]
  constructor
  · rintro ⟨before, after, ht, -⟩
    simp [ht]
  · intro hm
    obtain ⟨before, after, ht⟩ := List.append_of_mem hm
    have hn := h.nodup
    rw [ht, List.map_append, List.nodup_append] at hn
    refine ⟨before, after, ht, ?_⟩
    intro t hb
    simpa using (hn.2.2 t.1 (List.mem_map_of_mem hb) name (by simp)).symm

theorem name_of_get? (h : r.Keyed) (hg : r.get? name = some d) : d.name = name := h.named _ (h.get?_iff.mp hg)

theorem mem_namesOf (h : r.Keyed) : name ∈ r.namesOf kind ↔ (r.get? name).map (·.kind) = some kind := by
  unfold namesOf
  rw [(List.mergeSort_perm _ _).mem_iff, Option.map_eq_some_iff]
  constructor
  · intro hm
    obtain ⟨t, ht, rfl⟩ := List.mem_map.mp hm
    obtain ⟨ht, hk⟩ := List.mem_filter.mp ht
    exact ⟨t.2, h.get?_iff.mpr ht, of_decide_eq_true hk⟩
  · rintro ⟨d, hd, hk⟩
    exact List.mem_map.mpr ⟨(name, d), List.mem_filter.mpr ⟨h.get?_iff.mp hd, decide_eq_true hk⟩, rfl⟩

/-- The names of a kind are listed in order, each once. -/
theorem ascending_namesOf (h : r.Keyed) (kind : TypeKind) : (r.namesOf kind).Pairwise (· < ·) := by
  have hsorted : (r.namesOf kind).Pairwise (fun a b => decide (a ≤ b) = true) := by
    apply List.pairwise_mergeSort
    · intro a b c hab hbc
      exact decide_eq_true (String.le_trans (of_decide_eq_true hab) (of_decide_eq_true hbc))
    · intro a b
      simpa using String.le_total a b
  have hdistinct : (r.namesOf kind).Pairwise (· ≠ ·) := by
    apply (List.mergeSort_perm _ _).nodup_iff.mpr
    exact h.nodup.sublist (List.filter_sublist.map _)
  refine hsorted.imp₂ ?_ hdistinct
  intro a b hle hne
  exact lt_of_le_of_ne (of_decide_eq_true hle) hne

theorem namesOf_congr (hr : r.Keyed) (hs : s.Keyed)
    (h : ∀ name, (r.get? name).map (·.kind) = (s.get? name).map (·.kind)) (kind : TypeKind) :
    r.namesOf kind = s.namesOf kind := by
  apply (hr.ascending_namesOf kind).eq_of_mem_iff (hs.ascending_namesOf kind)
  intro name
  rw [hr.mem_namesOf, hs.mem_namesOf, h name]

theorem size_congr (hr : r.Keyed) (hs : s.Keyed) (h : ∀ name, (r.get? name).isSome = (s.get? name).isSome) :
    r.size = s.size := by
  have hkeys : (r.types.map (·.1)).Perm (s.types.map (·.1)) := by
    apply (List.perm_ext_iff_of_nodup hr.nodup hs.nodup).mpr
    intro name
    rw [mem_keys, mem_keys, h name]
  simpa [size] using hkeys.length_eq

end Keyed

end Registry

end WireQuery
