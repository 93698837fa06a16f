import WireQuery.Proofs.Registry.Load
import WireQuery.Proofs.Schema.Linked
import WireQuery.Samples

namespace WireQuery

namespace Catalog

variable {decls : List FileDecl}

theorem Declares.unique (h : agreeAll (ofFiles decls).names = true) (hm : (ofFiles decls).Declares file name m)
    (hn : (ofFiles decls).Declares other name n) : m = n := by
  have hnodup := (List.nodup_append.mp (nodup_ofFiles h)).1
  exact congrArg ScopedMessage.decl (eq_of_nodup_map hnodup hm.mem hn.mem rfl)

theorem Declares.not_enum (h : agreeAll (ofFiles decls).names = true) (hm : (ofFiles decls).Declares file name m) :
    ¬(ofFiles decls).DeclaresEnum other name e := by
  intro he
  have hdisjoint := (List.nodup_append.mp (nodup_ofFiles h)).2.2
  exact hdisjoint _ (List.mem_map_of_mem hm.mem) _ (List.mem_map_of_mem he.mem) rfl

theorem Refers.unique {c : Catalog} (h : c.Refers file outer d name) (h' : c.Refers file outer d name') :
    name = name' := by
  obtain ⟨-, e, he, rfl⟩ := h
  obtain ⟨-, e', he', rfl⟩ := h'
  rw [Option.some.inj (he.symm.trans he')]

/-- Maps are the repeated fields of a map's entry type. -/
theorem HasKind.isMap_iff (h : agreeAll (ofFiles decls).names = true)
    (hk : (ofFiles decls).HasKind file outer d kind) : kind.isMap = true ↔ d.label = .repeated ∧
      ∃ entry other m, (ofFiles decls).Refers file outer d entry ∧ (ofFiles decls).Declares other entry m ∧
        m.isMapEntry = true := by
  constructor
  · intro hmap
    cases hk with
    | map hr hm hl he => exact ⟨hl, _, _, _, hr, hm, he⟩
    | _ => contradiction
  · rintro ⟨hl, entry, other, m, hr, hm, he⟩
    cases hk with
    | scalar hn => exact absurd hn hr.1
    | enum hr' he' =>
      obtain rfl := hr.unique hr'
      exact absurd he' (hm.not_enum h)
    | message hr' hm' hn =>
      obtain rfl := hr.unique hr'
      obtain rfl := hm.unique h hm'
      exact absurd (hn hl) (by simp [he])
    | map => rfl

/-- A listed field is as a message declares it; `scope` is the full name of the message. -/
structure ListsField (c : Catalog) (file : SourceFile) (scope : String) (d : FieldDecl) (s : FieldSpec) : Prop where
  name : s.name = d.name
  number : (s.number : Int) = d.number.toInt
  repeated : s.isRepeated = true ↔ d.label = .repeated
  kind : c.HasKind file (Scope.join scope d.name) d s.kind
  map : s.kind.isMap = true ↔ d.label = .repeated ∧ ∃ entry other m,
    c.Refers file (Scope.join scope d.name) d entry ∧ c.Declares other entry m ∧ m.isMapEntry = true

theorem listsField_of_field? (h : agreeAll (ofFiles decls).names = true)
    (hf : (ofFiles decls).field? file name false d = some f) (hn : isFieldNumber d.number = true) :
    (ofFiles decls).ListsField file name d f.toFieldSpec := by
  obtain ⟨kind, hk, hf⟩ := Option.bind_eq_some_iff.mp hf
  obtain ⟨initial, -, hf⟩ := Option.bind_eq_some_iff.mp hf
  have hkind := hasKind_of_kind? hk
  have hpos := toNat_of_isFieldNumber hn
  cases hf
  refine ⟨rfl, ?_, ?_, hkind, hkind.isMap_iff h⟩
  · exact Int.toNat_of_nonneg (by omega)
  · by_cases hl : d.label = .repeated <;> simp [FieldSpec.isRepeated, hl]

/-- Fields are listed with ascending numbers where they are declared with ascending numbers. -/
theorem ascending_iff {c : Catalog} (h : List.Forall₂ (c.ListsField file name) ds listed) :
    listed.Pairwise (·.number < ·.number) ↔ ds.Pairwise (·.number < ·.number) := by
  have hnumbers : ds.map (·.number.toInt) = listed.map (fun s => (s.number : Int)) :=
    map_eq_of_forall₂ (h.imp (fun _ _ hs => hs.number.symm))
  calc listed.Pairwise (·.number < ·.number)
      ↔ (listed.map (fun s => (s.number : Int))).Pairwise (· < ·) := by simp [List.pairwise_map]
    _ ↔ (ds.map (·.number.toInt)).Pairwise (· < ·) := by rw [hnumbers]
    _ ↔ ds.Pairwise (·.number < ·.number) := by simp [List.pairwise_map, Int32.lt_iff_toInt_lt]

/-- The fields of a message that links are those declared, in the order of their numbers. -/
theorem fields_of_messageDef? (h : agreeAll (ofFiles decls).names = true)
    (hm : (ofFiles decls).messageDef? extensions s = some ty) :
    ∃ listed, List.Forall₂ ((ofFiles decls).ListsField s.file s.name) s.decl.fields listed ∧
      (ty.fields.map (·.toFieldSpec)).Perm listed := by
  obtain ⟨hs, fields, hf, rfl⟩ := messageDef?_inv hm
  refine ⟨fields.map (·.toFieldSpec), ?_, (List.mergeSort_perm ..).map _⟩
  rw [List.forall₂_map_right_iff]
  have hnumbers := (numbers_of_soundMessage hs).1
  exact ((List.forall₂_and_left _ _).mpr ⟨hnumbers, forall₂_of_mapM hf⟩).imp
    (fun d f hd => listsField_of_field? h hd.2 hd.1)

end Catalog

/-- Every message that a bundle declares, at any depth and unless it is the entry type of a map, is listed once under its
full name. Its fields are those declared, each as it is declared, in the order of their numbers. They are in the order of
the declaration exactly where the declared numbers ascend. -/
theorem TypeDescriptor.declared_fields_by_number (h : TypeDescriptor.ofBundle b = .ok ds) :
    ∃ decls, FileDecl.readBundle? b = some decls ∧
      ∀ file name m, (Catalog.ofFiles decls).Declares file name m → m.isMapEntry = false →
        ∃ t, .message t ∈ ds ∧ t.name = name ∧ (∀ d ∈ ds, d.name = name → d = .message t) ∧
          ∃ declared, List.Forall₂ ((Catalog.ofFiles decls).ListsField file name) m.fields declared ∧
            t.fields.Perm declared ∧ t.fields.Pairwise (·.number < ·.number) ∧
            (t.fields = declared ↔ m.fields.Pairwise (·.number < ·.number)) := by
  obtain ⟨p, hp, rfl⟩ := Registry.ofBundle_ok h
  obtain ⟨decls, hd, hlink⟩ := Pool.decode?_inv hp
  obtain ⟨hagree, extensions, -, hmessages, -⟩ := Catalog.link?_inv hlink
  have hsound := Pool.sound_of_decode? hp
  refine ⟨decls, hd, fun file name m hm hentry => ?_⟩
  obtain ⟨ty, hty, hdef⟩ := exists_of_mapM hmessages hm.mem
  obtain ⟨declared, hdeclared, hperm⟩ := Catalog.fields_of_messageDef? hagree hdef
  have hascending : (ty.fields.map (·.toFieldSpec)).Pairwise (·.number < ·.number) :=
    List.pairwise_map.mpr (hsound.messages ty hty).ascending
  obtain ⟨-, fields, -, rfl⟩ := Catalog.messageDef?_inv hdef
  refine ⟨⟨_, p⟩, Pool.mem_descriptors.mpr (.inl ⟨_, hty, hentry, rfl⟩), rfl,
    fun d hd hn => hsound.descriptor hty hd hn, declared, hdeclared, hperm, hascending, ?_⟩
  rw [← Catalog.ascending_iff hdeclared]
  constructor
  · intro he
    exact he ▸ hascending
  · intro hsorted
    -- The same fields can ascend in one order only.
    exact hperm.eq_of_pairwise (fun a b _ _ hab hba => absurd hab (Nat.lt_asymm hba)) hascending hsorted

namespace Samples

/-- The fields are not declared by their numbers. -/
def shuffled : MessageDecl := ((MessageDecl.named "T").optional "b" 2 int32).optional "a" 1 int32

def shuffledFile : FileDecl := (FileDecl.named "t.proto").message shuffled

/-- Nor are those of a message inside another one. -/
def linked : MessageDecl := ((MessageDecl.named "U").optionalRef "t" 2 .message ".T").repeated "n" 1 int32

def linkedFile : FileDecl := (FileDecl.named "t.proto").message ((MessageDecl.named "T").nest linked)

end Samples

open Samples

/-- A message inside another one, with a field of that type, lists its fields in another order than it declares them. -/
theorem TypeDescriptor.linked_fields_by_number : ∃ ds file t declared,
    TypeDescriptor.ofBundle (FileDecl.writeBundle [linkedFile]) = .ok ds ∧
      (Catalog.ofFiles [linkedFile]).Declares file "T.U" linked ∧ .message t ∈ ds ∧ t.name = "T.U" ∧
      List.Forall₂ ((Catalog.ofFiles [linkedFile]).ListsField file "T.U") linked.fields declared ∧
      t.fields.Perm declared ∧ t.fields ≠ declared := by
  have hread : FileDecl.readBundle? (FileDecl.writeBundle [linkedFile]) = some [linkedFile] := by cbv
  have hsome : (Pool.decode? (FileDecl.writeBundle [linkedFile])).isSome = true := by cbv
  obtain ⟨p, hp⟩ := Option.isSome_iff_exists.mp hsome
  have hds := Registry.ofBundle_of_decode? hp
  obtain ⟨file, hfile, hdecl⟩ : ∃ file ∈ (Catalog.ofFiles [linkedFile]).files, file.decl = linkedFile := by
    apply List.mem_map.mp
    simp [Catalog.decls_ofFiles]
  have hdeclares : (Catalog.ofFiles [linkedFile]).Declares file "T.U" linked := by
    refine ⟨hfile, ?_⟩
    rw [hdecl]
    exact .inside (.head _) (.here (.head _))
  obtain ⟨decls, hdecls, hlisted⟩ := declared_fields_by_number hds
  obtain rfl := Option.some.inj (hread.symm.trans hdecls)
  obtain ⟨t, ht, hn, -, declared, hdeclared, hperm, -, hiff⟩ := hlisted file "T.U" linked hdeclares (by decide)
  have hne : t.fields ≠ declared := fun he => absurd (hiff.mp he) (by decide)
  exact ⟨p.descriptors, file, t, declared, hds, hdeclares, ht, hn, hdeclared, hperm, hne⟩

/-- The order of the declaration is not kept: fields that are declared as `b`, `a` are listed as `a`, `b`. -/
theorem TypeDescriptor.declaration_order_is_lost : ∃ ds file,
    TypeDescriptor.ofBundle (FileDecl.writeBundle [shuffledFile]) = .ok ds ∧
      FileDecl.readBundle? (FileDecl.writeBundle [shuffledFile]) = some [shuffledFile] ∧
      (Catalog.ofFiles [shuffledFile]).Declares file "T" shuffled ∧ shuffled.isMapEntry = false ∧
      ∀ t, .message t ∈ ds → t.name = "T" →
        ¬List.Forall₂ ((Catalog.ofFiles [shuffledFile]).ListsField file "T") shuffled.fields t.fields := by
  have hread : FileDecl.readBundle? (FileDecl.writeBundle [shuffledFile]) = some [shuffledFile] := by cbv
  have hnames : ((Pool.decode? (FileDecl.writeBundle [shuffledFile])).bind (·.message? "T")).map
      (fun ty => ty.fields.map (·.name)) = some ["a", "b"] := by cbv
  obtain ⟨ty, hty, hnames⟩ := Option.map_eq_some_iff.mp hnames
  obtain ⟨p, hp, hty⟩ := Option.bind_eq_some_iff.mp hty
  have hname : ty.name = "T" := by simpa using List.find?_some hty
  have hfile : (⟨0, shuffledFile, Imports.seenFrom [shuffledFile] 0 shuffledFile⟩ : SourceFile) ∈
      (Catalog.ofFiles [shuffledFile]).files := .head _
  refine ⟨p.descriptors, _, Registry.ofBundle_of_decode? hp, hread, ⟨hfile, .here (.head _)⟩, by decide, ?_⟩
  intro t ht hn hfields
  have hsound := Pool.sound_of_decode? hp
  obtain rfl : t = ⟨ty, p⟩ := TypeDescriptor.message.inj
    (hsound.descriptor (List.mem_of_find?_eq_some hty) ht (hn.trans hname.symm))
  have hsame : shuffled.fields.map (·.name) = ty.fields.map (·.name) :=
    map_eq_of_forall₂ ((List.forall₂_map_right_iff.mp hfields).imp (fun _ _ hs => hs.name.symm))
  rw [hnames] at hsame
  exact absurd hsame (by decide)

end WireQuery
