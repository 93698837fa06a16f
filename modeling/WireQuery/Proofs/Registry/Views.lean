import WireQuery.Proofs.Registry.Names
import WireQuery.Proofs.Text.ByteOrder

namespace WireQuery

namespace Registry

/-- What all views report of a name: a message, an enum, or neither. -/
inductive Stands (r : Registry) (name : String) : Option TypeKind → Prop
  | message (hget : r.get? name = some (.message m)) (hname : m.name = name) (hmessage : r.message? name = .ok m)
      (henum : r.enum? name = .error (.unknownType .enum name)) (hlisted : name ∈ r.messageNames)
      (hother : name ∉ r.enumNames) : Stands r name (some .message)
  | enum (hget : r.get? name = some (.enum e)) (hname : e.name = name) (henum : r.enum? name = .ok e)
      (hmessage : r.message? name = .error (.unknownType .message name)) (hlisted : name ∈ r.enumNames)
      (hother : name ∉ r.messageNames) : Stands r name (some .enum)
  | free (hget : r.get? name = none) (hmessage : r.message? name = .error (.unknownType .message name))
      (henum : r.enum? name = .error (.unknownType .enum name)) (hmessages : name ∉ r.messageNames)
      (henums : name ∉ r.enumNames) : Stands r name none

variable {r : Registry}

theorem Stands.kind_eq (h : r.Stands name k) : k = (r.get? name).map (·.kind) := by
  cases h with
  | message hget => rw [hget]; rfl
  | enum hget => rw [hget]; rfl
  | free hget => rw [hget]; rfl

namespace Keyed

/-- Every name stands for what is found under it. -/
theorem stands (h : r.Keyed) (name : String) : r.Stands name ((r.get? name).map (·.kind)) := by
  have hmessages : name ∈ r.messageNames ↔ (r.get? name).map (·.kind) = some .message := h.mem_namesOf
  have henums : name ∈ r.enumNames ↔ (r.get? name).map (·.kind) = some .enum := h.mem_namesOf
  cases hg : r.get? name with
  | none =>
    rw [hg] at hmessages henums
    exact .free hg (by rw [message?, hg]) (by rw [enum?, hg]) (by simp [hmessages]) (by simp [henums])
  | some d =>
    have hname := h.name_of_get? hg
    rw [hg] at hmessages henums
    cases d with
    | message m =>
      exact .message hg hname (message?_ok.mpr hg) (by rw [enum?, hg]) (hmessages.mpr rfl)
        (by simp [henums, TypeDescriptor.kind])
    | enum e =>
      exact .enum hg hname (enum?_ok.mpr hg) (by rw [message?, hg]) (henums.mpr rfl)
        (by simp [hmessages, TypeDescriptor.kind])

theorem disjoint_names (h : r.Keyed) : List.Disjoint r.messageNames r.enumNames := by
  intro name hm he
  have hkinds := (h.mem_namesOf.mp hm).symm.trans (h.mem_namesOf.mp he)
  exact absurd hkinds (by decide)

end Keyed

theorem length_namesOf (r : Registry) (kind : TypeKind) :
    (r.namesOf kind).length = r.types.countP (fun t => t.2.kind = kind) := by
  rw [namesOf, List.length_mergeSort, List.length_map, List.countP_eq_length_filter]

/-- Every type is a message or an enum. -/
theorem length_names (r : Registry) : r.messageNames.length + r.enumNames.length = r.size := by
  have hother : r.types.countP (fun t => t.2.kind = .enum) = r.types.countP (fun t => ¬(t.2.kind = .message)) := by
    congr 1
    funext t
    cases t.2 <;> rfl
  rw [messageNames, enumNames, length_namesOf, length_namesOf, hother, size]
  simpa using (List.length_eq_countP_add_countP (fun t : String × TypeDescriptor => decide (t.2.kind = .message))).symm

/-- After any run of requests a name stands for exactly one of a message, an enum and nothing, and all views say which.
Types are held under their own names. The names of messages and those of enums are listed in the order of their bytes,
each once; no name is in both lists, and together they are as many as there are types. -/
theorem views_agree (history : List Request) :
    let r := empty.run history
    (∀ name, ∃! k, r.Stands name k) ∧
    (∀ t ∈ r.types, t.2.name = t.1) ∧
    r.messageNames.Pairwise (fun a b => Utf8.encode a < Utf8.encode b) ∧
    r.enumNames.Pairwise (fun a b => Utf8.encode a < Utf8.encode b) ∧
    List.Disjoint r.messageNames r.enumNames ∧
    r.messageNames.length + r.enumNames.length = r.size ∧ (r.size = 0 ↔ r.isEmpty = true) := by
  intro r
  have hr : r.Keyed := empty_keyed.run history
  have hascending (kind : TypeKind) : (r.namesOf kind).Pairwise (fun a b => Utf8.encode a < Utf8.encode b) :=
    (hr.ascending_namesOf kind).imp Utf8.encode_lt
  refine ⟨?_, hr.named, hascending .message, hascending .enum, hr.disjoint_names, r.length_names, ?_⟩
  · intro name
    exact ⟨_, hr.stands name, fun k hk => hk.kind_eq⟩
  · rw [size, isEmpty, List.length_eq_zero_iff, List.isEmpty_iff]

end Registry

end WireQuery
