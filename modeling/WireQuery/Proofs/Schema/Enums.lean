import WireQuery.Proofs.Schema.Linked

namespace WireQuery

namespace EnumType

/-- The positions of a number are added behind those that the index has for it. -/
theorem foldl_numbers (xs : List (EnumValue × Nat)) (m : Std.HashMap Int32 (List Nat)) (number : Int32) :
    (xs.foldl (fun m (v, i) => m.insert v.number (m.getD v.number [] ++ [i])) m).getD number [] =
      m.getD number [] ++ (xs.filter (·.1.number = number)).map (·.2) := by
  induction xs generalizing m with
  | nil => simp
  | cons x xs ih =>
    rw [List.foldl_cons, ih, Std.HashMap.getD_insert, List.filter_cons]
    by_cases hn : x.1.number = number
    · simp [hn]
    · simp [hn]

/-- The first position of a name stays. -/
theorem foldl_names (xs : List (EnumValue × Nat)) (m : Std.HashMap String Nat) (name : String) :
    (xs.foldl (fun m (v, i) => m.insertIfNew v.name i) m)[name]? =
      (m[name]?).or ((xs.find? (·.1.name = name)).map (·.2)) := by
  induction xs generalizing m with
  | nil => simp
  | cons x xs ih =>
    rw [List.foldl_cons, ih, Std.HashMap.getElem?_insertIfNew, List.find?_cons]
    by_cases hn : x.1.name = name
    · subst hn
      cases hm : m[x.1.name]? with
      | none =>
        have hfree : x.1.name ∉ m := by
          rw [Std.HashMap.mem_iff_isSome_getElem?, hm]
          simp
        simp [hfree]
      | some i =>
        have hused : x.1.name ∈ m := Std.HashMap.mem_iff_isSome_getElem?.mpr (by simp [hm])
        simp [hused]
    · simp [hn]

theorem getElem?_of_mem_zipIdx {values : List EnumValue} (h : x ∈ values.zipIdx) : values[x.2]? = some x.1 := by
  simpa using List.mem_zipIdx_iff_getElem?.mp h

/-- A number has the positions at which a search finds it. -/
theorem getD_indexNumbers (values : List EnumValue) (number : Int32) :
    (indexNumbers values).getD number [] = (values.zipIdx.filter (·.1.number = number)).map (·.2) := by
  rw [indexNumbers, foldl_numbers]
  simp

/-- A name has the first position at which a search finds it. -/
theorem getElem?_indexNames (values : List EnumValue) (s : String) :
    (indexNames values)[s]? = (values.zipIdx.find? (·.1.name = s)).map (·.2) := by
  rw [indexNames, foldl_names]
  simp

theorem declared_of_position {values : List EnumValue} (h : i ∈ (indexNumbers values).getD number []) :
    ∃ v, values[i]? = some v ∧ v.number = number := by
  rw [getD_indexNumbers] at h
  obtain ⟨x, hx, rfl⟩ := List.mem_map.mp h
  obtain ⟨hmem, hnumber⟩ := List.mem_filter.mp hx
  exact ⟨x.1, getElem?_of_mem_zipIdx hmem, of_decide_eq_true hnumber⟩

theorem declared_of_namePosition {values : List EnumValue} {s : String} (h : (indexNames values)[s]? = some i) :
    ∃ v, values[i]? = some v ∧ v.name = s := by
  rw [getElem?_indexNames] at h
  obtain ⟨x, hx, rfl⟩ := Option.map_eq_some_iff.mp h
  exact ⟨x.1, getElem?_of_mem_zipIdx (List.mem_of_find?_eq_some hx), by simpa using List.find?_some hx⟩

variable (name : String) (values : List EnumValue)

/-- The declarations of a number are those that a search through all of them finds, in order. -/
theorem valuesFor_ofValues (number : Int32) :
    (ofValues name values).valuesFor number = values.filter (·.number = number) := by
  have hvalues : (values.zipIdx.filter (·.1.number = number)).filterMap (fun x => values[x.2]?) =
      (values.zipIdx.filter (·.1.number = number)).filterMap (fun x => some x.1) := by
    apply List.filterMap_congr
    intro x hx
    exact getElem?_of_mem_zipIdx (List.mem_filter.mp hx).1
  calc (ofValues name values).valuesFor number
      = (values.zipIdx.filter (·.1.number = number)).filterMap (fun x => values[x.2]?) := by
        simp only [valuesFor, ofValues, getD_indexNumbers, List.filterMap_map]
        rfl
    _ = (values.zipIdx.filter (·.1.number = number)).map (·.1) := by rw [hvalues, List.filterMap_eq_map']
    _ = (values.zipIdx.map (·.1)).filter (·.number = number) := by rw [List.filter_map]; rfl
    _ = values.filter (·.number = number) := by rw [List.zipIdx_map_fst]

/-- The declaration of a name is the first that a search through all of them finds. -/
theorem valueNamed?_ofValues (s : String) : (ofValues name values).valueNamed? s = values.find? (·.name = s) := by
  have hfind : values.find? (·.name = s) = (values.zipIdx.find? (·.1.name = s)).map (·.1) := by
    conv => lhs; rw [← List.zipIdx_map_fst 0 values]
    rw [List.find?_map]
    rfl
  simp only [valueNamed?, ofValues, getElem?_indexNames, hfind]
  cases hx : values.zipIdx.find? (·.1.name = s) with
  | none => rfl
  | some x => exact getElem?_of_mem_zipIdx (List.mem_of_find?_eq_some hx)

theorem firstNameFor?_ofValues (number : Int32) :
    (ofValues name values).firstNameFor? number = (values.find? (·.number = number)).map (·.name) := by
  rw [firstNameFor?, valuesFor_ofValues, List.head?_filter]

end EnumType

theorem EnumDecl.nodup_names {e : EnumDecl} (h : (e.entries i scope).Pairwise (fun a b => a.agrees b = true)) :
    (e.values.map (·.name)).Nodup := by
  have hvalues := (List.pairwise_map.mp (List.pairwise_cons.mp h).2)
  refine List.pairwise_map.mpr (hvalues.imp ?_)
  intro v w hagrees hname
  simp [NameEntry.agrees, hname] at hagrees

section Messages

variable {file : SourceFile} {i : Nat} {e : ScopedEnum}

mutual

theorem nodup_of_enumsOf {scope : String} (m : MessageDecl)
    (h : (m.entries i scope).Pairwise (fun a b => a.agrees b = true)) (he : e ∈ enumsOf file scope m) :
    (e.decl.values.map (·.name)).Nodup := by
  obtain ⟨name, fields, nested, enums, _, extensions, _, oneofs, _⟩ := m
  simp only [MessageDecl.entries, List.pairwise_cons, List.pairwise_append] at h
  obtain ⟨-, ⟨⟨⟨-, hnested, -⟩, henums, -⟩, -, -⟩⟩ := h
  rw [enumsOf] at he
  rcases List.mem_append.mp he with he | he
  · exact nodup_of_enumsIn nested hnested he
  · obtain ⟨d, hd, rfl⟩ := List.mem_map.mp he
    exact EnumDecl.nodup_names ((List.pairwise_flatMap.mp henums).1 d hd)

theorem nodup_of_enumsIn {scope : String} (ms : List MessageDecl)
    (h : (nestedEntries i scope ms).Pairwise (fun a b => a.agrees b = true)) (he : e ∈ enumsIn file scope ms) :
    (e.decl.values.map (·.name)).Nodup := by
  match ms with
  | [] => contradiction
  | m :: ms =>
    rw [nestedEntries] at h
    rw [enumsIn] at he
    obtain ⟨hm, hms, -⟩ := List.pairwise_append.mp h
    rcases List.mem_append.mp he with he | he
    · exact nodup_of_enumsOf m hm he
    · exact nodup_of_enumsIn ms hms he

end

end Messages

namespace Catalog

/-- Where all names agree, the declarations of an enum have different names. -/
theorem nodup_of_enums (h : agreeAll (ofFiles decls).names = true) (he : e ∈ (ofFiles decls).enums) :
    (e.decl.values.map (·.name)).Nodup := by
  obtain ⟨file, hfile, he⟩ := List.mem_flatMap.mp he
  obtain ⟨⟨f, i⟩, hf, rfl⟩ := List.mem_map.mp hfile
  have hentries : (f.entries i).Pairwise (fun a b => a.agrees b = true) :=
    (List.pairwise_flatMap.mp (agreeAll_iff.mp h)).1 (f, i) hf
  simp only [FileDecl.entries, List.pairwise_append] at hentries
  obtain ⟨⟨⟨⟨-, hmessages, -⟩, henums, -⟩, -, -⟩, -, -⟩ := hentries
  rcases List.mem_append.mp he with he | he
  · exact nodup_of_enumsIn f.messages hmessages he
  · obtain ⟨d, hd, rfl⟩ := List.mem_map.mp he
    exact EnumDecl.nodup_names ((List.pairwise_flatMap.mp henums).1 d hd)

theorem nodup_of_enumDef? (h : enumDef? e = some d) (hn : (e.decl.values.map (·.name)).Nodup) :
    (d.values.map (·.name)).Nodup := by
  unfold enumDef? at h
  split at h
  · cases h
    simpa [Function.comp_def] using hn
  · contradiction

end Catalog

/-- An enum of a bundle gives no two of its declarations the same name. -/
theorem Pool.nodup_of_decode? (h : Pool.decode? b = some p) (he : e ∈ p.enums) : (e.values.map (·.name)).Nodup := by
  obtain ⟨decls, -, h⟩ := decode?_inv h
  obtain ⟨hagree, _, -, -, henums⟩ := Catalog.link?_inv h
  obtain ⟨d, hd, hdef⟩ := mem_of_mapM henums he
  exact Catalog.nodup_of_enumDef? hdef (Catalog.nodup_of_enums hagree hd)

end WireQuery
