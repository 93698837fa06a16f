import WireQuery.Proofs.Schema.Catalog

namespace WireQuery

/-- A message stands under its full name in a list of a scope, or inside one of the messages there. -/
inductive DeclaredIn : (scope : String) → List MessageDecl → (name : String) → MessageDecl → Prop
  | here (h : m ∈ ms) : DeclaredIn scope ms (Scope.join scope m.name) m
  | inside (h : outer ∈ ms) (hn : DeclaredIn (Scope.join scope outer.name) outer.nested name m) :
      DeclaredIn scope ms name m

theorem not_declaredIn_nil : ¬DeclaredIn scope [] name m := by
  intro h
  cases h <;> contradiction

theorem declaredIn_cons : DeclaredIn scope (first :: ms) name m ↔
    ((name = Scope.join scope first.name ∧ m = first) ∨
      DeclaredIn (Scope.join scope first.name) first.nested name m) ∨ DeclaredIn scope ms name m := by
  constructor
  · intro h
    cases h with
    | here h =>
      rcases List.mem_cons.mp h with rfl | h
      · exact .inl (.inl ⟨rfl, rfl⟩)
      · exact .inr (.here h)
    | inside h hn =>
      rcases List.mem_cons.mp h with rfl | h
      · exact .inl (.inr hn)
      · exact .inr (.inside h hn)
  · rintro ((⟨rfl, rfl⟩ | h) | h)
    · exact .here List.mem_cons_self
    · exact .inside List.mem_cons_self h
    · cases h with
      | here h => exact .here (List.mem_cons_of_mem _ h)
      | inside h hn => exact .inside (List.mem_cons_of_mem _ h) hn

section Listing

variable {file : SourceFile}

mutual

theorem mem_messagesOf {s : ScopedMessage} (scope : String) (m : MessageDecl) : s ∈ messagesOf file scope m ↔
    s.file = file ∧ ((s.name = Scope.join scope m.name ∧ s.decl = m) ∨
      DeclaredIn (Scope.join scope m.name) m.nested s.name s.decl) := by
  obtain ⟨name, fields, nested, enums, ranges, extensions, options, oneofs, reserved⟩ := m
  rw [messagesOf, List.mem_cons, mem_messagesIn, and_or_left]
  apply or_congr_left
  cases s
  simp

theorem mem_messagesIn {s : ScopedMessage} (scope : String) (ms : List MessageDecl) :
    s ∈ messagesIn file scope ms ↔ s.file = file ∧ DeclaredIn scope ms s.name s.decl := by
  match ms with
  | [] => simp [messagesIn, not_declaredIn_nil]
  | m :: ms =>
    rw [messagesIn, List.mem_append, mem_messagesOf, mem_messagesIn, declaredIn_cons, ← and_or_left]

end

mutual

theorem mem_enumsOf {s : ScopedEnum} (scope : String) (m : MessageDecl) : s ∈ enumsOf file scope m ↔
    s.file = file ∧ ∃ outer n, ((outer = Scope.join scope m.name ∧ n = m) ∨
      DeclaredIn (Scope.join scope m.name) m.nested outer n) ∧ s.decl ∈ n.enums ∧
        s.name = Scope.join outer s.decl.name := by
  obtain ⟨name, fields, nested, enums, ranges, extensions, options, oneofs, reserved⟩ := m
  -- The enums of the message itself are listed last.
  rw [enumsOf, List.mem_append, mem_enumsIn, or_comm]
  simp only [or_and_right, exists_or, and_or_left]
  apply or_congr_left
  obtain ⟨file', full, e⟩ := s
  constructor
  · intro h
    obtain ⟨e, he, h⟩ := List.mem_map.mp h
    obtain ⟨rfl, rfl, rfl⟩ := ScopedEnum.mk.inj h
    exact ⟨rfl, _, _, ⟨rfl, rfl⟩, he, rfl⟩
  · rintro ⟨hf, _, _, ⟨rfl, rfl⟩, he, hn⟩
    exact List.mem_map.mpr ⟨e, he, by rw [← hf, ← hn]⟩

theorem mem_enumsIn {s : ScopedEnum} (scope : String) (ms : List MessageDecl) : s ∈ enumsIn file scope ms ↔
    s.file = file ∧ ∃ outer m, DeclaredIn scope ms outer m ∧ s.decl ∈ m.enums ∧
      s.name = Scope.join outer s.decl.name := by
  match ms with
  | [] => simp [enumsIn, not_declaredIn_nil]
  | m :: ms =>
    rw [enumsIn, List.mem_append, mem_enumsOf, mem_enumsIn]
    simp only [declaredIn_cons, or_and_right, exists_or, and_or_left]

end

end Listing

namespace Catalog

variable {decls : List FileDecl}

/-- A file declares a message under its full name, at any depth. -/
def Declares (c : Catalog) (file : SourceFile) (name : String) (m : MessageDecl) : Prop :=
  file ∈ c.files ∧ DeclaredIn file.decl.scope file.decl.messages name m

/-- A file declares an enum under its full name, beside its messages or inside one of them. -/
def DeclaresEnum (c : Catalog) (file : SourceFile) (name : String) (e : EnumDecl) : Prop :=
  file ∈ c.files ∧ ((e ∈ file.decl.enums ∧ name = Scope.join file.decl.scope e.name) ∨
    ∃ outer m, DeclaredIn file.decl.scope file.decl.messages outer m ∧ e ∈ m.enums ∧ name = Scope.join outer e.name)

/-- The files of a catalog are those of the bundle. -/
theorem decls_ofFiles (decls : List FileDecl) : (ofFiles decls).files.map (·.decl) = decls := by
  simp [ofFiles, Function.comp_def]

theorem mem_messages {s : ScopedMessage} :
    s ∈ (ofFiles decls).messages ↔ (ofFiles decls).Declares s.file s.name s.decl := by
  have hmessages : (ofFiles decls).messages = (ofFiles decls).files.flatMap (·.messages) := rfl
  rw [hmessages, List.mem_flatMap, Declares]
  constructor
  · rintro ⟨file, hf, hs⟩
    obtain ⟨rfl, hd⟩ := (mem_messagesIn _ _).mp hs
    exact ⟨hf, hd⟩
  · rintro ⟨hf, hd⟩
    exact ⟨s.file, hf, (mem_messagesIn _ _).mpr ⟨rfl, hd⟩⟩

theorem Declares.mem (h : (ofFiles decls).Declares file name m) : ⟨file, name, m⟩ ∈ (ofFiles decls).messages :=
  mem_messages.mpr h

theorem mem_enums {s : ScopedEnum} :
    s ∈ (ofFiles decls).enums ↔ (ofFiles decls).DeclaresEnum s.file s.name s.decl := by
  have henums : (ofFiles decls).enums = (ofFiles decls).files.flatMap (·.enums) := rfl
  rw [henums, List.mem_flatMap, DeclaresEnum]
  constructor
  · rintro ⟨file, hf, hs⟩
    rcases List.mem_append.mp hs with hs | hs
    · obtain ⟨rfl, hd⟩ := (mem_enumsIn _ _).mp hs
      exact ⟨hf, .inr hd⟩
    · obtain ⟨e, he, rfl⟩ := List.mem_map.mp hs
      exact ⟨hf, .inl ⟨he, rfl⟩⟩
  · rintro ⟨hf, ⟨he, hn⟩ | hd⟩
    · exact ⟨s.file, hf, List.mem_append_right _ (List.mem_map.mpr ⟨s.decl, he, by rw [← hn]⟩)⟩
    · exact ⟨s.file, hf, List.mem_append_left _ ((mem_enumsIn _ _).mpr ⟨rfl, hd⟩)⟩

theorem DeclaresEnum.mem (h : (ofFiles decls).DeclaresEnum file name e) : ⟨file, name, e⟩ ∈ (ofFiles decls).enums :=
  mem_enums.mpr h

end Catalog

namespace Scope

theorem get?_mem {s : Scope} (h : s.get? want name = some e) : e ∈ s.names ∧ want e.kind := by
  obtain ⟨hf, hw⟩ := Option.filter_eq_some_iff.mp h
  simp only [Bool.and_eq_true] at hw
  exact ⟨List.mem_of_find?_eq_some hf, hw.1⟩

theorem resolve?_mem {s : Scope} (h : s.resolve? want scope name = some e) : e ∈ s.names ∧ want e.kind := by
  unfold resolve? at h
  split at h
  · exact get?_mem h
  · dsimp only at h
    split at h
    · obtain ⟨outer, _, hg⟩ := List.exists_of_findSome?_eq_some h
      exact get?_mem hg
    · split at h
      · exact get?_mem h
      · contradiction

end Scope

theorem isSome_of_mem_map {xs : List α} {name : α → String} (h : s ∈ xs.map name) :
    (xs.find? (fun x => name x = s)).isSome := by
  obtain ⟨x, hx, rfl⟩ := List.mem_map.mp h
  exact List.find?_isSome.mpr ⟨x, hx, by simp⟩

namespace Catalog

/-- The type name of a field, looked up from inside a scope, stands for the type of a full name. -/
def Refers (c : Catalog) (file : SourceFile) (scope : String) (d : FieldDecl) (name : String) : Prop :=
  d.typeName.getD "" ≠ "" ∧
    ∃ e, (c.scope file).resolve? NameKind.isType scope (d.typeName.getD "") = some e ∧ e.name = name

/-- The kind a field is declared with: that of the type it refers to, or the scalar that it names itself. -/
inductive HasKind (c : Catalog) (file : SourceFile) (scope : String) (d : FieldDecl) : Kind → Prop
  | scalar (hn : d.typeName.getD "" = "") (ht : d.type = .scalar k) : HasKind c file scope d (.scalar k)
  | enum (hr : c.Refers file scope d name) (he : c.DeclaresEnum other name e) : HasKind c file scope d (.enum name)
  | message (hr : c.Refers file scope d name) (hm : c.Declares other name m)
      (hn : d.label = .repeated → m.isMapEntry = false) : HasKind c file scope d (.message name)
  | map (hr : c.Refers file scope d name) (hm : c.Declares other name m) (hl : d.label = .repeated)
      (he : m.isMapEntry = true) : HasKind c file scope d (.map name)

/-- Every message that has its name listed is declared, and looking for it finds it. -/
theorem declares_of_name (h : NameEntry.mk name .message i ∈ (ofFiles decls).names) :
    ∃ file m, (ofFiles decls).message? name = some m ∧ (ofFiles decls).Declares file name m := by
  have hn : name ∈ (ofFiles decls).messages.map (·.name) := by
    rw [← namesOf_message_ofFiles]
    exact NameEntry.mem_namesOf.mpr ⟨_, h, rfl, rfl⟩
  obtain ⟨s, hs⟩ := Option.isSome_iff_exists.mp (isSome_of_mem_map hn)
  obtain rfl : s.name = name := by simpa using List.find?_some hs
  exact ⟨s.file, s.decl, by rw [message?, hs]; rfl, mem_messages.mp (List.mem_of_find?_eq_some hs)⟩

theorem declaresEnum_of_name (h : NameEntry.mk name .enum i ∈ (ofFiles decls).names) :
    ∃ file e, (ofFiles decls).DeclaresEnum file name e := by
  have hn : name ∈ (ofFiles decls).enums.map (·.name) := by
    rw [← namesOf_enum_ofFiles]
    exact NameEntry.mem_namesOf.mpr ⟨_, h, rfl, rfl⟩
  obtain ⟨s, hs, rfl⟩ := List.mem_map.mp hn
  exact ⟨s.file, s.decl, mem_enums.mp hs⟩

theorem hasKind_of_kind? (h : (ofFiles decls).kind? file outer d = some kind) :
    (ofFiles decls).HasKind file outer d kind := by
  unfold kind? at h
  split at h
  · next hn =>
    split at h
    · next ht =>
      cases h
      exact .scalar hn ht
    · contradiction
  · next hne =>
    obtain ⟨⟨name, ekind, i⟩, hres, h⟩ := Option.bind_eq_some_iff.mp h
    have hr : (ofFiles decls).Refers file outer d name := ⟨hne, _, hres, rfl⟩
    obtain ⟨hmem, ht⟩ := Scope.resolve?_mem hres
    cases ekind with
    | enum =>
      obtain ⟨other, e, he⟩ := declaresEnum_of_name hmem
      cases h
      exact .enum hr he
    | message =>
      obtain ⟨other, m, hfind, hm⟩ := declares_of_name hmem
      simp only [reduceCtorEq, ↓reduceIte, hfind, Option.map_some, Option.getD_some, Option.some.injEq] at h
      subst h
      split
      · next hc =>
        simp only [Bool.and_eq_true, decide_eq_true_eq] at hc
        exact .map hr hm hc.1 hc.2
      · next hc =>
        refine .message hr hm (fun hl => ?_)
        simpa [hl] using hc
    | _ => contradiction

end Catalog

end WireQuery
