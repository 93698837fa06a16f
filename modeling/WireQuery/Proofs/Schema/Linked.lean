import Mathlib.Data.List.Forall2
import WireQuery.Proofs.Schema.Declared
import WireQuery.Proofs.Schema.Scalar
import WireQuery.Message.Basic
import WireQuery.Schema.Options.Setting

namespace WireQuery

/-- The pool says what the types of fields of a kind are. -/
def Kind.Known (p : Pool) : Kind → Prop
  | .scalar _ => True
  | .enum name => (p.enum? name).isSome
  | .message name | .map name => (p.message? name).isSome

/-- Whether values of a kind are messages or the entries of a map. -/
def Kind.isMessage : Kind → Bool
  | .message _ | .map _ => true
  | _ => false

theorem Kind.isMap_of_isMessage {kind : Kind} (h : kind.isMessage = false) : kind.isMap = false := by
  cases kind with
  | scalar kind => rfl
  | enum name => rfl
  | message name => contradiction
  | map entry => contradiction

/-- What a field is once its declaration is linked; `known` holds of the kinds whose types are found. -/
structure FieldDef.Linked (known : Kind → Prop) (f : FieldDef) : Prop where
  number : 0 < f.number ∧ f.number < 2 ^ 29
  known : known f.kind
  initial : ∀ s, f.initial = .scalar s → f.kind.readScalar? s.payload = some s
  packed : f.packed = true → f.kind.packedType?.isSome

theorem FieldDef.Linked.imp {f : FieldDef} (h : f.Linked k) (hk : ∀ kind, k kind → l kind) : f.Linked l :=
  ⟨h.number, hk _ h.known, h.initial, h.packed⟩

abbrev FieldDef.Sound (p : Pool) (f : FieldDef) : Prop := f.Linked (Kind.Known p)

structure MessageDef.Linked (known : Kind → Prop) (ty : MessageDef) : Prop where
  fields : ∀ f ∈ ty.fields, f.extension = false ∧ f.Linked known
  extensions : ∀ f ∈ ty.extensions, f.extension = true ∧ f.Linked known
  ascending : ty.fields.Pairwise (·.number < ·.number)

theorem MessageDef.Linked.imp {ty : MessageDef} (h : ty.Linked k) (hk : ∀ kind, k kind → l kind) : ty.Linked l :=
  ⟨fun f hf => ⟨(h.fields f hf).1, (h.fields f hf).2.imp hk⟩,
    fun f hf => ⟨(h.extensions f hf).1, (h.extensions f hf).2.imp hk⟩, h.ascending⟩

theorem MessageDef.Linked.mem {ty : MessageDef} (h : ty.Linked known) (hf : f ∈ ty.fields ++ ty.extensions) :
    f.Linked known := by
  rcases List.mem_append.mp hf with hf | hf
  · exact (h.fields f hf).2
  · exact (h.extensions f hf).2

abbrev MessageDef.Sound (p : Pool) (ty : MessageDef) : Prop := ty.Linked (Kind.Known p)

structure Pool.Sound (p : Pool) : Prop where
  messages : ∀ ty ∈ p.messages, ty.Sound p
  names : (p.messages.map (·.name) ++ p.enums.map (·.name)).Nodup

theorem scalar_of_initial {f : FieldDef} (h : f.initial = .scalar s) :
    f.kind.isMessage = false ∧ f.initialScalar = s := by
  unfold FieldDef.initial at h
  cases hk : f.kind with
  | map name => simp [hk] at h
  | message name =>
    simp only [hk] at h
    split at h <;> contradiction
  | _ =>
    simp only [hk] at h
    split at h
    · contradiction
    · exact ⟨rfl, Value.scalar.inj h⟩

theorem mapM_of_forall {xs : List α} {f : α → Option β} {g : α → β} (h : ∀ x ∈ xs, f x = some (g x)) :
    xs.mapM f = some (xs.map g) := by
  induction xs with
  | nil => rfl
  | cons x xs ih =>
    rw [List.mapM_cons, h x List.mem_cons_self, ih (fun y hy => h y (List.mem_cons_of_mem _ hy))]
    rfl

theorem forall₂_of_mapM {xs : List α} {f : α → Option β} (h : xs.mapM f = some ys) :
    List.Forall₂ (fun x y => f x = some y) xs ys := by
  induction xs generalizing ys with
  | nil =>
    simp only [List.mapM_nil, Option.pure_def, Option.some.injEq] at h
    simp [← h]
  | cons x xs ih =>
    rw [List.mapM_cons] at h
    obtain ⟨z, hz, h⟩ := Option.bind_eq_some_iff.mp h
    obtain ⟨zs, hzs, h⟩ := Option.bind_eq_some_iff.mp h
    obtain rfl := Option.some.inj h
    exact .cons hz (ih hzs)

theorem exists_of_forall₂ {r : α → β → Prop} (h : List.Forall₂ r xs ys) (hx : x ∈ xs) : ∃ y ∈ ys, r x y := by
  induction h with
  | nil => contradiction
  | cons hr _ ih =>
    rcases List.mem_cons.mp hx with rfl | hx
    · exact ⟨_, List.mem_cons_self, hr⟩
    · obtain ⟨y, hy, hr⟩ := ih hx
      exact ⟨y, List.mem_cons_of_mem _ hy, hr⟩

theorem exists_of_mapM {xs : List α} {f : α → Option β} (h : xs.mapM f = some ys) (hx : x ∈ xs) :
    ∃ y ∈ ys, f x = some y := exists_of_forall₂ (r := fun x y => f x = some y) (forall₂_of_mapM h) hx

theorem mem_of_mapM {xs : List α} {f : α → Option β} (h : xs.mapM f = some ys) (hy : y ∈ ys) :
    ∃ x ∈ xs, f x = some y := exists_of_forall₂ (r := fun y x => f x = some y) (forall₂_of_mapM h).flip hy

theorem map_eq_of_forall₂ {k : α → γ} {g : β → γ} (h : List.Forall₂ (fun x y => k x = g y) xs ys) :
    xs.map k = ys.map g := by
  rw [← List.forall₂_eq_eq_eq, List.forall₂_map_left_iff, List.forall₂_map_right_iff]
  exact h

theorem map_of_mapM {xs : List α} {ys : List β} {γ : Type} {g : β → γ} {k : α → γ} (h : xs.mapM f = some ys)
    (hf : ∀ x ∈ xs, ∀ y, f x = some y → g y = k x) : ys.map g = xs.map k := by
  have hxy := (List.forall₂_and_left xs ys).mpr ⟨hf, forall₂_of_mapM h⟩
  exact (map_eq_of_forall₂ (hxy.imp (fun _ y h => (h.1 y h.2).symm))).symm

theorem nodup_of_allDistinct [BEq α] [LawfulBEq α] {xs : List α} (h : Catalog.allDistinct xs = true) : xs.Nodup := by
  induction xs with
  | nil => simp
  | cons x xs ih =>
    simp only [Catalog.allDistinct, Bool.and_eq_true, Bool.not_eq_true', List.contains_eq_mem,
      decide_eq_false_iff_not] at h
    exact List.nodup_cons.mpr ⟨h.1, ih h.2⟩

theorem allDistinct_of_nodup [BEq α] [LawfulBEq α] {xs : List α} (h : xs.Nodup) : Catalog.allDistinct xs = true := by
  induction xs with
  | nil => rfl
  | cons x xs ih =>
    obtain ⟨hx, hxs⟩ := List.nodup_cons.mp h
    simp [Catalog.allDistinct, hx, ih hxs]

theorem eq_of_nodup_map {xs : List α} {name : α → β} (h : (xs.map name).Nodup) (hx : x ∈ xs) (hy : y ∈ xs)
    (he : name x = name y) : x = y := by
  induction xs with
  | nil => contradiction
  | cons z xs ih =>
    rw [List.map_cons, List.nodup_cons] at h
    rcases List.mem_cons.mp hx with rfl | hx'
    · rcases List.mem_cons.mp hy with rfl | hy'
      · rfl
      · exact absurd (List.mem_map.mpr ⟨y, hy', he.symm⟩) h.1
    · rcases List.mem_cons.mp hy with rfl | hy'
      · exact absurd (List.mem_map.mpr ⟨x, hx', he⟩) h.1
      · exact ih h.2 hx' hy'

/-- A search by a name that nothing else has finds what it is for. -/
theorem find?_of_nodup {xs : List α} {name : α → String} (h : (xs.map name).Nodup) (hx : x ∈ xs) :
    xs.find? (fun y => name y = name x) = some x := by
  have hmem : name x ∈ xs.map name := List.mem_map.mpr ⟨x, hx, rfl⟩
  obtain ⟨y, hy⟩ := Option.isSome_iff_exists.mp (isSome_of_mem_map hmem)
  rw [hy, eq_of_nodup_map h (List.mem_of_find?_eq_some hy) hx (by simpa using List.find?_some hy)]

namespace Catalog

/-- The catalog says what the types of fields of a kind are. -/
def Knows (c : Catalog) : Kind → Prop
  | .scalar _ => True
  | .enum name => name ∈ c.enums.map (·.name)
  | .message name | .map name => name ∈ c.messages.map (·.name)

theorem HasKind.knows (h : (ofFiles decls).HasKind file outer d kind) : (ofFiles decls).Knows kind := by
  cases h with
  | scalar => trivial
  | enum _ he => exact List.mem_map.mpr ⟨_, he.mem, rfl⟩
  | message _ hm => exact List.mem_map.mpr ⟨_, hm.mem, rfl⟩
  | map _ hm => exact List.mem_map.mpr ⟨_, hm.mem, rfl⟩

/-- The default of a field is of the field's kind. -/
theorem initialScalar_of_default? {f : FieldDef} (h : default? c f.kind d = some f.default)
    (hk : f.kind.isMessage = false) : f.kind.readScalar? f.initialScalar.payload = some f.initialScalar := by
  unfold FieldDef.initialScalar
  generalize f.kind = kind at h hk
  generalize f.default = initial at h
  cases kind with
  | scalar k =>
    cases hd : d.default with
    | none =>
      simp only [default?, hd, Option.some.injEq] at h
      subst h
      exact ScalarKind.read?_payload (ScalarKind.kind?_zero k)
    | some s =>
      simp only [default?, hd] at h
      obtain ⟨v, hv, rfl⟩ := Option.map_eq_some_iff.mp h
      exact ScalarKind.read?_payload (ScalarKind.kind?_of_parse? hv)
  | enum name =>
    cases hd : d.default with
    | none =>
      simp only [default?, hd, Option.some.injEq] at h
      subst h
      cases (c.enum? name).bind (·.values.head?) with
      | none => exact Kind.readScalar?_enum _ _
      | some v => exact Kind.readScalar?_enum _ _
    | some s =>
      simp only [default?, hd] at h
      obtain ⟨v, _, rfl⟩ := Option.map_eq_some_iff.mp h
      exact Kind.readScalar?_enum _ _
  | message name => contradiction
  | map name => contradiction

theorem toNat_of_isFieldNumber (h : isFieldNumber n = true) : 0 < n.toInt ∧ n.toInt < 2 ^ 29 := by
  simp only [isFieldNumber, Bool.and_eq_true, decide_eq_true_eq, Int32.le_iff_toInt_le] at h
  have h1 : (1 : Int32).toInt = 1 := by decide
  have h2 : (536870911 : Int32).toInt = 536870911 := by decide
  omega

/-- A declaration with a field number links to a field that is as it says. -/
theorem linked_of_field? (h : (ofFiles decls).field? file outer ext d = some f) (hn : isFieldNumber d.number = true) :
    f.extension = ext ∧ f.number = d.number.toInt.toNat ∧ f.Linked (ofFiles decls).Knows := by
  obtain ⟨kind, hk, h⟩ := Option.bind_eq_some_iff.mp h
  obtain ⟨initial, hi, h⟩ := Option.bind_eq_some_iff.mp h
  have hb := toNat_of_isFieldNumber hn
  simp only [Option.some.injEq] at h
  subst h
  refine ⟨rfl, rfl, ⟨by dsimp only; omega, (hasKind_of_kind? hk).knows, ?_, ?_⟩⟩
  · intro s hs
    obtain ⟨hm, rfl⟩ := scalar_of_initial hs
    exact initialScalar_of_default? (d := d) hi hm
  · intro hp
    simp only [Bool.and_eq_true] at hp
    exact hp.1

theorem ascending_of_nodup {fields : List FieldDef} (h : (fields.map (·.number)).Nodup) :
    (fields.mergeSort (fun a b => a.number ≤ b.number)).Pairwise (·.number < ·.number) := by
  have hle : (fields.mergeSort (fun a b => a.number ≤ b.number)).Pairwise (fun a b => a.number ≤ b.number) := by
    have h : (fields.mergeSort (fun a b => a.number ≤ b.number)).Pairwise
        (fun a b => decide (a.number ≤ b.number) = true) :=
      List.pairwise_mergeSort (fun a b c => by simp; omega) (fun a b => by simp; omega) fields
    simpa using h
  have hp := List.mergeSort_perm fields (fun a b => decide (a.number ≤ b.number))
  have hne : ((fields.mergeSort (fun a b => a.number ≤ b.number)).map (·.number)).Nodup := (hp.map _).nodup_iff.mpr h
  exact (hle.and (List.pairwise_map.mp hne)).imp (fun ⟨hl, hn⟩ => Nat.lt_of_le_of_ne hl hn)

theorem fieldNumber_of_hasPlace (h : hasPlace m d = true) : isFieldNumber d.number = true := by
  unfold hasPlace at h
  cases hn : isFieldNumber d.number <;> simp_all

/-- A message that links is sound, and each of its fields links. -/
theorem messageDef?_inv {c : Catalog} (h : c.messageDef? extensions m = some ty) : soundMessage m = true ∧
    ∃ fields, m.decl.fields.mapM (c.field? m.file m.name false) = some fields ∧
      ty = ⟨m.name, m.decl.isMapEntry, fields.mergeSort (fun a b => a.number ≤ b.number),
        (extensions.filter (·.1 = m.name)).map (·.2)⟩ := by
  unfold messageDef? at h
  split at h
  · next hs =>
    obtain ⟨fields, hf, rfl⟩ := Option.map_eq_some_iff.mp h
    exact ⟨hs, fields, hf, rfl⟩
  · contradiction

/-- The fields of a sound message have numbers of fields, and no two the same. -/
theorem numbers_of_soundMessage (h : soundMessage m = true) :
    (∀ d ∈ m.decl.fields, isFieldNumber d.number = true) ∧ (m.decl.fields.map (·.number)).Nodup := by
  simp only [soundMessage, Bool.and_eq_true, List.all_eq_true] at h
  obtain ⟨⟨⟨hp, hd⟩, -⟩, -⟩ := h
  exact ⟨fun d hm => fieldNumber_of_hasPlace (hp d hm).1, nodup_of_allDistinct hd⟩

/-- The fields of a message that links, and the extensions that link to it. -/
theorem linked_of_messageDef? (h : (ofFiles decls).messageDef? extensions m = some ty)
    (hx : ∀ x ∈ extensions, x.2.extension = true ∧ x.2.Linked (ofFiles decls).Knows) :
    ty.name = m.name ∧ ty.Linked (ofFiles decls).Knows := by
  obtain ⟨hs, fields, hf, rfl⟩ := messageDef?_inv h
  obtain ⟨hnum, hd⟩ := numbers_of_soundMessage hs
  have hmap := map_of_mapM (g := (·.number)) (k := fun d => d.number.toInt.toNat) hf
    (fun d hm f h => (linked_of_field? h (hnum d hm)).2.1)
  refine ⟨rfl, ⟨?_, ?_, ascending_of_nodup ?_⟩⟩
  · intro f hm
    obtain ⟨d, hd, h⟩ := mem_of_mapM hf (List.mem_mergeSort.mp hm)
    have hl := linked_of_field? h (hnum d hd)
    exact ⟨hl.1, hl.2.2⟩
  · intro f hm
    obtain ⟨x, hf, rfl⟩ := List.mem_map.mp hm
    exact hx x (List.mem_filter.mp hf).1
  · rw [hmap]
    refine List.pairwise_map.mpr ((List.pairwise_map.mp hd).imp_of_mem ?_)
    intro a b ha hb hne heq
    have ha := toNat_of_isFieldNumber (hnum a ha)
    have hb := toNat_of_isFieldNumber (hnum b hb)
    exact hne (Int32.toInt_inj.mp (by omega))

theorem name_of_enumDef? (h : enumDef? e = some d) : d.name = e.name := by
  unfold enumDef? at h
  split at h
  · cases h
    rfl
  · contradiction

theorem linked_of_extension? (h : (ofFiles decls).extension? e = some x) :
    x.2.extension = true ∧ x.2.Linked (ofFiles decls).Knows := by
  obtain ⟨target, _, h⟩ := Option.bind_eq_some_iff.mp h
  obtain ⟨m, _, h⟩ := Option.bind_eq_some_iff.mp h
  split at h
  · next hp =>
    obtain ⟨f, hf, rfl⟩ := Option.map_eq_some_iff.mp h
    have hl := linked_of_field? hf (fieldNumber_of_hasPlace hp)
    exact ⟨hl.1, hl.2.2⟩
  · contradiction

/-- What links has names that agree, and the definitions of all its messages and enums. -/
theorem link?_inv {c : Catalog} (h : c.link? = some p) : agreeAll c.names = true ∧
    ∃ extensions, (c.files.flatMap (·.extensions)).mapM c.extension? = some extensions ∧
      c.messages.mapM (c.messageDef? extensions) = some p.messages ∧ c.enums.mapM enumDef? = some p.enums := by
  unfold link? at h
  dsimp only at h
  split at h
  · next hc =>
    simp only [Bool.and_eq_true] at hc
    obtain ⟨extensions, hx, h⟩ := Option.bind_eq_some_iff.mp h
    obtain ⟨messages, hm, h⟩ := Option.bind_eq_some_iff.mp h
    obtain ⟨enums, he, h⟩ := Option.bind_eq_some_iff.mp h
    obtain rfl := Option.some.inj h
    exact ⟨hc.1.1.2, extensions, hx, hm, he⟩
  · contradiction

/-- Everything in a pool of linked files is known to it, under one name each. -/
theorem sound_of_link? (h : (ofFiles decls).link? = some p) : p.Sound := by
  obtain ⟨hagree, extensions, hx, hm, he⟩ := link?_inv h
  have hext (x) (hi : x ∈ extensions) : x.2.extension = true ∧ x.2.Linked (ofFiles decls).Knows := by
    obtain ⟨e, _, h⟩ := mem_of_mapM hx hi
    exact linked_of_extension? h
  have hmn : p.messages.map (·.name) = (ofFiles decls).messages.map (·.name) :=
    map_of_mapM hm (fun m _ ty h => (linked_of_messageDef? h hext).1)
  have hen : p.enums.map (·.name) = (ofFiles decls).enums.map (·.name) :=
    map_of_mapM he (fun e _ d h => name_of_enumDef? h)
  have hknown (kind : Kind) (hk : (ofFiles decls).Knows kind) : kind.Known p := by
    cases kind with
    | scalar k => trivial
    | enum name => exact isSome_of_mem_map (hen ▸ hk)
    | message name => exact isSome_of_mem_map (hmn ▸ hk)
    | map name => exact isSome_of_mem_map (hmn ▸ hk)
  constructor
  · intro ty hty
    obtain ⟨m, _, h⟩ := mem_of_mapM hm hty
    exact (linked_of_messageDef? h hext).2.imp hknown
  · rw [hmn, hen]
    exact nodup_ofFiles hagree

end Catalog

/-- What a bundle decodes to is what its files link to. -/
theorem Pool.decode?_inv (h : Pool.decode? b = some p) :
    ∃ decls, FileDecl.readBundle? b = some decls ∧ (Catalog.ofFiles decls).link? = some p := by
  obtain ⟨decls, hd, h⟩ := Option.bind_eq_some_iff.mp h
  obtain ⟨q, hq, h⟩ := Option.bind_eq_some_iff.mp h
  split at h
  · cases h
    exact ⟨decls, hd, hq⟩
  · contradiction

theorem Pool.sound_of_decode? (h : Pool.decode? b = some p) : p.Sound := by
  obtain ⟨decls, -, h⟩ := decode?_inv h
  exact Catalog.sound_of_link? h

namespace Pool

variable {p : Pool}

theorem mem_descriptors : d ∈ p.descriptors ↔
    (∃ ty ∈ p.messages, ty.mapEntry = false ∧ d = .message ⟨ty, p⟩) ∨
      ∃ e ∈ p.enums, d = .enum (EnumType.ofValues e.name e.values) := by
  simp only [descriptors, List.mem_append, List.mem_map, List.mem_filter, Bool.not_eq_true', and_assoc,
    eq_comm (a := d)]

theorem message_of_find? (h : p.descriptors.find? (·.name = name) = some (.message t)) :
    t.pool = p ∧ t.definition ∈ p.messages ∧ t.definition.name = name := by
  have hname : (TypeDescriptor.message t).name = name := by simpa using List.find?_some h
  rcases mem_descriptors.mp (List.mem_of_find?_eq_some h) with ⟨ty, ht, -, he⟩ | ⟨e, -, he⟩
  · obtain rfl := TypeDescriptor.message.inj he
    exact ⟨rfl, ht, hname⟩
  · contradiction

theorem names_descriptors (p : Pool) : p.descriptors.map (·.name) =
    (p.messages.filter (!·.mapEntry)).map (·.name) ++ p.enums.map (·.name) := by
  rw [descriptors, List.map_append, List.map_map, List.map_map]
  rfl

/-- A pool lists no name twice. -/
theorem Sound.nodup_descriptors (hp : p.Sound) : (p.descriptors.map (·.name)).Nodup := by
  rw [names_descriptors]
  exact hp.names.sublist ((List.filter_sublist.map _).append (List.Sublist.refl _))

theorem Sound.find?_descriptor (hp : p.Sound) (hd : d ∈ p.descriptors) :
    p.descriptors.find? (·.name = d.name) = some d := find?_of_nodup hp.nodup_descriptors hd

theorem Sound.message?_of_mem (hp : p.Sound) (ht : ty ∈ p.messages) : p.message? ty.name = some ty :=
  find?_of_nodup (List.nodup_append.mp hp.names).1 ht

/-- Only one descriptor has the name of a message. -/
theorem Sound.descriptor (hp : p.Sound) (ht : ty ∈ p.messages) (hd : d ∈ p.descriptors) (hn : d.name = ty.name) :
    d = .message ⟨ty, p⟩ := by
  obtain ⟨hm, -, hdisjoint⟩ := List.nodup_append.mp hp.names
  rcases mem_descriptors.mp hd with ⟨ty', ht', -, rfl⟩ | ⟨e, he, rfl⟩
  · rw [eq_of_nodup_map hm ht' ht hn]
  · exact absurd hn.symm (hdisjoint _ (List.mem_map.mpr ⟨ty, ht, rfl⟩) _ (List.mem_map.mpr ⟨e, he, rfl⟩))

end Pool

end WireQuery
