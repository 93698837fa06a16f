import WireQuery.Proofs.Schema.Linked
import WireQuery.Proofs.Schema.Written

namespace WireQuery

namespace Scope

theorem join_inj {scope : String} : join scope a = join scope b ↔ a = b := by
  unfold join
  split
  · rfl
  · rw [String.append_right_inj]

theorem length_of_mem_prefixesIn (h : p ∈ prefixesIn seen cs) : p.length < seen.length + cs.length := by
  induction cs generalizing seen with
  | nil => contradiction
  | cons c cs ih =>
    have hrest (h : p ∈ prefixesIn (c :: seen) cs) : p.length < seen.length + (c :: cs).length := by
      have := ih h
      rw [List.length_cons] at this ⊢
      omega
    rw [prefixesIn] at h
    split at h
    · rcases List.mem_cons.mp h with rfl | h
      · simp
      · exact hrest h
    · exact hrest h

end Scope

/-- A package is not longer than the innermost one, and what is declared in it is. -/
theorem FileDecl.ne_join_of_mem_packages {f : FileDecl} (h : p ∈ f.packages) (name : String) :
    p ≠ Scope.join f.scope name := by
  unfold packages at h
  split at h
  · contradiction
  · next hs =>
    have hp : p.toList.length ≤ f.scope.toList.length := by
      rcases List.mem_append.mp h with h | h
      · obtain ⟨q, hq, rfl⟩ := List.mem_map.mp h
        have := Scope.length_of_mem_prefixesIn hq
        simp only [List.length_nil] at this
        rw [String.toList_ofList]
        omega
      · rw [List.mem_singleton.mp h]
    have hj : (Scope.join f.scope name).toList.length = f.scope.toList.length + 1 + name.toList.length := by
      simp only [Scope.join, if_neg hs, String.toList_append, List.length_append]
      rfl
    intro he
    rw [he] at hp
    omega

/-- The names of a file that declares one enum agree if the declarations have names of their own. -/
theorem FileDecl.OfEnums.agree_of_nodup {f : FileDecl} (hf : f.OfEnums) (he : f.enums = [e])
    (hn : (e.name :: e.values.map (·.name)).Nodup) : agreeAll (f.entries i) = true := by
  have hentries : f.entries i = f.packages.map (fun p => ⟨p, .package, i⟩) ++ e.entries i f.scope := by
    simp [entries, hf.messages, hf.services, hf.extensions, he, nestedEntries]
  have hnames : ((e.entries i f.scope).map (·.name)).Nodup := by
    have hmap : (e.entries i f.scope).map (·.name) = (e.name :: e.values.map (·.name)).map (Scope.join f.scope) := by
      simp [EnumDecl.entries, Function.comp_def]
    rw [hmap]
    exact hn.map (fun _ _ h => Scope.join_inj.mp h)
  rw [hentries, agreeAll_iff, List.pairwise_append]
  refine ⟨?_, ?_, ?_⟩
  · exact List.pairwise_map.mpr (List.pairwise_of_forall (by simp [NameEntry.agrees]))
  · refine (List.pairwise_map.mp hnames).imp ?_
    intro a b hab
    simp [NameEntry.agrees, hab]
  · intro a ha b hb
    obtain ⟨p, hp, rfl⟩ := List.mem_map.mp ha
    have hne : p ≠ b.name := by
      rw [EnumDecl.entries] at hb
      rcases List.mem_cons.mp hb with rfl | hb
      · exact ne_join_of_mem_packages hp _
      · obtain ⟨v, -, rfl⟩ := List.mem_map.mp hb
        exact ne_join_of_mem_packages hp _
    simp [NameEntry.agrees, hne]

/-- What an enum is linked to. -/
def ScopedEnum.definition (e : ScopedEnum) : EnumDef := ⟨e.name, e.decl.values.map (·.toEnumValue)⟩

namespace Catalog

/-- An enum of a file that need not start at zero is sound if it declares something and no number twice without leave. -/
theorem soundEnum_of_plain {e : ScopedEnum} (hp : e.decl.Plain) (hd : e.file.decl.isProto3 = false)
    (hv : e.decl.values ≠ []) (hn : e.decl.allowsAlias = true ∨ (e.decl.values.map (·.number)).Nodup) :
    soundEnum e = true := by
  have hnumbers : (e.decl.allowsAlias || allDistinct (e.decl.values.map (·.number))) = true := by
    rw [Bool.or_eq_true]
    exact hn.imp_right allDistinct_of_nodup
  simp [soundEnum, hv, hd, hnumbers, hp.reserved]

variable {files : List FileDecl}

theorem ofEnums_of_mem_files (hf : ∀ f ∈ files, f.OfEnums) (h : s ∈ (ofFiles files).files) : s.decl.OfEnums := by
  refine hf s.decl ?_
  rw [← decls_ofFiles files]
  exact List.mem_map_of_mem h

theorem messages_of_ofEnums (hf : ∀ f ∈ files, f.OfEnums) : (ofFiles files).messages = [] := by
  have hmessages : (ofFiles files).messages = (ofFiles files).files.flatMap (·.messages) := rfl
  rw [hmessages, List.flatMap_eq_nil_iff]
  intro s hs
  rw [SourceFile.messages, (ofEnums_of_mem_files hf hs).messages, messagesIn]

theorem enums_of_one {f : FileDecl} (hf : f.OfEnums) (he : f.enums = [e]) :
    (ofFiles [f]).enums = [⟨⟨0, f, Imports.seenFrom [f] 0 f⟩, Scope.join f.scope e.name, e⟩] := by
  simp [ofFiles, SourceFile.enums, hf.messages, he, enumsIn]

/-- Files of sound enums fit together if the files and all that they declare have names of their own. -/
theorem link?_of_ofEnums (hf : ∀ f ∈ files, f.OfEnums) (hn : (files.map (·.name)).Nodup)
    (ha : agreeAll (ofFiles files).names = true) (he : ∀ e ∈ (ofFiles files).enums, soundEnum e = true) :
    (ofFiles files).link? = some ⟨[], (ofFiles files).enums.map (·.definition)⟩ := by
  have himports : files.all (Imports.sound files) = true := by
    rw [List.all_eq_true]
    intro f hmem
    simp [Imports.sound, (hf f hmem).imports, (hf f hmem).publicImports, (hf f hmem).weakImports]
  have hmethods : (ofFiles files).files.all (fun f => f.methods.all (ofFiles files).soundMethod) = true := by
    rw [List.all_eq_true]
    intro s hs
    simp [SourceFile.methods, (ofEnums_of_mem_files hf hs).services]
  have hextensions : (ofFiles files).files.flatMap (·.extensions) = [] := by
    rw [List.flatMap_eq_nil_iff]
    intro s hs
    have hs := ofEnums_of_mem_files hf hs
    rw [SourceFile.extensions, hs.messages, hs.extensions, extensionsIn]
    rfl
  have henums : (ofFiles files).enums.mapM enumDef? = some ((ofFiles files).enums.map (·.definition)) := by
    apply mapM_of_forall
    intro e hmem
    rw [enumDef?, if_pos (he e hmem)]
    rfl
  rw [link?, decls_ofFiles, hextensions, messages_of_ofEnums hf, henums]
  simp [allDistinct_of_nodup hn, ha, himports, hmethods]

end Catalog

/-- Where no message is declared, the leave to declare a number twice is set as every bundle knows it. -/
theorem PlacedOptions.isSome_allowAlias (c : Catalog) (file : SourceFile) (scope : String) (enums : List EnumDef) :
    (message? c ⟨[], enums⟩ ⟨file, scope, .enum, [(2, .varint 1)]⟩).isSome = true := by
  have hread : (Pool.standardOptions.read? (OptionSubject.definition .enum) (Wire.write [(2, .varint 1)])).isSome =
      true := by decide +kernel
  obtain ⟨start, hstart⟩ := Option.isSome_iff_exists.mp hread
  have htype : Pool.optionType ⟨[], enums⟩ .enum = ⟨OptionSubject.definition .enum, Pool.standardOptions⟩ := rfl
  have hwritten : WrittenOption.readAll? [(2, .varint 1)] = some [] := rfl
  simp [message?, htype, hstart, hwritten]

/-- The only options of a plain enum are those that allow a number to be declared twice. -/
theorem PlacedOptions.mem_ofEnum {e : ScopedEnum} (he : e.decl.Plain) (ho : o ∈ ofEnum e) :
    o = ⟨e.file, e.name, .enum, [(2, .varint 1)]⟩ := by
  rcases List.mem_append.mp ho with ho | ho
  · obtain ⟨fields, hf, rfl⟩ := List.mem_map.mp ho
    rcases he.options with hn | hs
    · simp [hn] at hf
    · rw [hs] at hf
      rw [List.mem_singleton.mp hf]
  · obtain ⟨v, hv, ho⟩ := List.mem_flatMap.mp ho
    simp [of, he.values v hv] at ho

theorem Catalog.options_of_ofEnums {files : List FileDecl} (hf : ∀ f ∈ files, f.OfEnums)
    (ho : o ∈ (ofFiles files).options) : ∃ file scope, o = ⟨file, scope, .enum, [(2, .varint 1)]⟩ := by
  have hfiles : (ofFiles files).files.flatMap PlacedOptions.ofFile = [] := by
    rw [List.flatMap_eq_nil_iff]
    intro s hs
    have hs := ofEnums_of_mem_files hf hs
    simp [PlacedOptions.ofFile, PlacedOptions.of, SourceFile.methods, SourceFile.extensions, extensionsIn, hs.options,
      hs.services, hs.messages, hs.extensions]
  rw [options, hfiles, messages_of_ofEnums hf] at ho
  obtain ⟨e, he, ho⟩ := List.mem_flatMap.mp ho
  obtain ⟨hfile, ⟨hmem, -⟩ | ⟨outer, m, hm, -⟩⟩ := mem_enums.mp he
  · exact ⟨_, _, PlacedOptions.mem_ofEnum ((ofEnums_of_mem_files hf hfile).enums _ hmem) ho⟩
  · rw [(ofEnums_of_mem_files hf hfile).messages] at hm
    exact absurd hm not_declaredIn_nil

/-- The written files of enums whose names agree decode to their enums, if each of those is sound. -/
theorem Pool.decode?_writeBundle {files : List FileDecl} (hf : ∀ f ∈ files, f.OfEnums) (hn : (files.map (·.name)).Nodup)
    (ha : agreeAll (Catalog.ofFiles files).names = true)
    (he : ∀ e ∈ (Catalog.ofFiles files).enums, Catalog.soundEnum e = true)
    (hl : (FileDecl.writeBundle files).length < 2 ^ 64) :
    decode? (FileDecl.writeBundle files) = some ⟨[], (Catalog.ofFiles files).enums.map (·.definition)⟩ := by
  have hoptions : (Catalog.ofFiles files).options.all
      (fun o => (o.message? (Catalog.ofFiles files) ⟨[], (Catalog.ofFiles files).enums.map (·.definition)⟩).isSome) =
        true := by
    rw [List.all_eq_true]
    intro o ho
    obtain ⟨file, scope, rfl⟩ := Catalog.options_of_ofEnums hf ho
    exact PlacedOptions.isSome_allowAlias _ _ _ _
  simp only [decode?, FileDecl.readBundle?_writeBundle hf hl, Catalog.link?_of_ofEnums hf hn ha he, Option.bind_eq_bind,
    Option.bind_some, if_pos hoptions]

/-- The written file of one plain enum decodes to it under its full name. -/
theorem Pool.decode?_one {f : FileDecl} (hf : f.OfEnums) (hd : f.isProto3 = false) (he : f.enums = [e])
    (hv : e.values ≠ []) (hnames : (e.name :: e.values.map (·.name)).Nodup)
    (hnumbers : e.allowsAlias = true ∨ (e.values.map (·.number)).Nodup)
    (hl : (FileDecl.writeBundle [f]).length < 2 ^ 64) :
    decode? (FileDecl.writeBundle [f]) =
      some ⟨[], [⟨Scope.join f.scope e.name, e.values.map (·.toEnumValue)⟩]⟩ := by
  have hall : ∀ g ∈ [f], g.OfEnums := by simpa using hf
  have hentries : (Catalog.ofFiles [f]).names = f.entries 0 := by simp [Catalog.ofFiles]
  have henums := Catalog.enums_of_one hf he
  have hsound : ∀ s ∈ (Catalog.ofFiles [f]).enums, Catalog.soundEnum s = true := by
    intro s hs
    rw [henums, List.mem_singleton] at hs
    subst hs
    exact Catalog.soundEnum_of_plain (hf.enums e (by simp [he])) hd hv hnumbers
  rw [decode?_writeBundle hall (by simp) (hentries ▸ hf.agree_of_nodup he hnames) hsound hl, henums]
  rfl

end WireQuery
