import WireQuery.Schema.Link

namespace WireQuery

namespace NameEntry

/-- The names of one kind, in the order of their declarations. -/
def namesOf (k : NameKind) (es : List NameEntry) : List String := (es.filter (·.kind = k)).map (·.name)

@[simp] theorem namesOf_nil : namesOf k [] = [] := rfl

theorem namesOf_cons : namesOf k (e :: es) = (if e.kind = k then [e.name] else []) ++ namesOf k es := by
  unfold namesOf
  rw [List.filter_cons]
  split <;> simp_all

@[simp] theorem namesOf_append : namesOf k (as ++ bs) = namesOf k as ++ namesOf k bs := by
  simp [namesOf]

theorem namesOf_flatMap (f : α → List NameEntry) (xs : List α) :
    namesOf k (xs.flatMap f) = xs.flatMap (fun x => namesOf k (f x)) := by
  induction xs with
  | nil => rfl
  | cons x xs ih => rw [List.flatMap_cons, namesOf_append, ih, List.flatMap_cons]

theorem namesOf_other {es : List NameEntry} (h : ∀ e ∈ es, e.kind ≠ k) : namesOf k es = [] := by
  unfold namesOf
  rw [List.map_eq_nil_iff, List.filter_eq_nil_iff]
  intro e he
  simpa using h e he

theorem namesOf_map_other (h : l ≠ k) (name : α → String) (xs : List α) :
    namesOf k (xs.map (fun x => ⟨name x, l, i⟩)) = [] := namesOf_other (by simp [h])

theorem mem_namesOf : s ∈ namesOf k es ↔ ∃ e ∈ es, e.kind = k ∧ e.name = s := by
  simp [namesOf, and_assoc]

end NameEntry

open NameEntry

theorem EnumDecl.namesOf_entries_enum (e : EnumDecl) :
    namesOf .enum (e.entries i scope) = [Scope.join scope e.name] := by
  rw [entries, namesOf_cons, namesOf_map_other (by decide)]
  rfl

theorem EnumDecl.namesOf_entries_message (e : EnumDecl) : namesOf .message (e.entries i scope) = [] := by
  apply namesOf_other
  simp [entries]

theorem ServiceDecl.namesOf_entries (s : ServiceDecl) (h : k.isType) : namesOf k (s.entries i scope) = [] := by
  apply namesOf_other
  cases k <;> simp_all [entries, NameKind.isType]

theorem namesOf_flatMap_nil {f : α → List NameEntry} (h : ∀ x, namesOf k (f x) = []) (xs : List α) :
    namesOf k (xs.flatMap f) = [] := by
  simp [namesOf_flatMap, h]

theorem namesOf_enum_declared (enums : List EnumDecl) :
    namesOf .enum (enums.flatMap (EnumDecl.entries i scope)) = enums.map (fun e => Scope.join scope e.name) := by
  rw [namesOf_flatMap]
  induction enums with
  | nil => rfl
  | cons e enums ih => rw [List.flatMap_cons, EnumDecl.namesOf_entries_enum, ih]; rfl

section Messages

variable (file : SourceFile) (i : Nat)

mutual

theorem namesOf_message_entries (scope : String) (m : MessageDecl) :
    namesOf .message (m.entries i scope) = (messagesOf file scope m).map (·.name) := by
  obtain ⟨name, fields, nested, enums, _, extensions, _, oneofs, _⟩ := m
  have hn := namesOf_message_nested (Scope.join scope name) nested
  have he : namesOf .message (enums.flatMap (EnumDecl.entries i (Scope.join scope name))) = [] :=
    namesOf_flatMap_nil EnumDecl.namesOf_entries_message enums
  simp [MessageDecl.entries, messagesOf, namesOf_cons, namesOf_map_other, hn, he]

theorem namesOf_message_nested (scope : String) (ms : List MessageDecl) :
    namesOf .message (nestedEntries i scope ms) = (messagesIn file scope ms).map (·.name) := by
  match ms with
  | [] => rfl
  | m :: ms =>
    rw [nestedEntries, namesOf_append, namesOf_message_entries scope m, namesOf_message_nested scope ms,
      messagesIn, List.map_append]

end

mutual

theorem namesOf_enum_entries (scope : String) (m : MessageDecl) :
    namesOf .enum (m.entries i scope) = (enumsOf file scope m).map (·.name) := by
  obtain ⟨name, fields, nested, enums, _, extensions, _, oneofs, _⟩ := m
  have hn := namesOf_enum_nested (Scope.join scope name) nested
  have he : namesOf .enum (enums.flatMap (EnumDecl.entries i (Scope.join scope name))) =
      enums.map (fun e => Scope.join (Scope.join scope name) e.name) := namesOf_enum_declared enums
  simp [MessageDecl.entries, enumsOf, namesOf_cons, namesOf_map_other, hn, he]

theorem namesOf_enum_nested (scope : String) (ms : List MessageDecl) :
    namesOf .enum (nestedEntries i scope ms) = (enumsIn file scope ms).map (·.name) := by
  match ms with
  | [] => rfl
  | m :: ms =>
    rw [nestedEntries, namesOf_append, namesOf_enum_entries scope m, namesOf_enum_nested scope ms,
      enumsIn, List.map_append]

end

end Messages

theorem FileDecl.namesOf_message_entries (file : SourceFile) (f : FileDecl) :
    namesOf .message (f.entries i) = (messagesIn file f.scope f.messages).map (·.name) := by
  have he : namesOf .message (f.enums.flatMap (EnumDecl.entries i f.scope)) = [] :=
    namesOf_flatMap_nil EnumDecl.namesOf_entries_message f.enums
  have hs : namesOf .message (f.services.flatMap (ServiceDecl.entries i f.scope)) = [] :=
    namesOf_flatMap_nil (fun s => s.namesOf_entries rfl) f.services
  simp [entries, namesOf_map_other, namesOf_message_nested file, he, hs]

theorem FileDecl.namesOf_enum_entries (file : SourceFile) (f : FileDecl) :
    namesOf .enum (f.entries i) =
      (enumsIn file f.scope f.messages).map (·.name) ++ f.enums.map (fun e => Scope.join f.scope e.name) := by
  have hs : namesOf .enum (f.services.flatMap (ServiceDecl.entries i f.scope)) = [] :=
    namesOf_flatMap_nil (fun s => s.namesOf_entries rfl) f.services
  simp [entries, namesOf_map_other, namesOf_enum_nested file, namesOf_enum_declared, hs]

namespace Catalog

theorem namesOf_message_ofFiles (decls : List FileDecl) :
    namesOf .message (ofFiles decls).names = (ofFiles decls).messages.map (·.name) := by
  simp only [ofFiles, namesOf_flatMap, List.flatMap_map, List.map_flatMap]
  congr 1
  funext ⟨f, i⟩
  exact f.namesOf_message_entries _

theorem namesOf_enum_ofFiles (decls : List FileDecl) :
    namesOf .enum (ofFiles decls).names = (ofFiles decls).enums.map (·.name) := by
  simp only [ofFiles, namesOf_flatMap, List.flatMap_map, List.map_flatMap]
  congr 1
  funext ⟨f, i⟩
  rw [f.namesOf_enum_entries ⟨i, f, Imports.seenFrom decls i f⟩]
  simp [SourceFile.enums]

end Catalog

theorem agreeAll_iff : agreeAll es = true ↔ es.Pairwise (fun a b => a.agrees b = true) := by
  induction es with
  | nil => simp [agreeAll]
  | cons e es ih => simp [agreeAll, ih]

theorem ne_of_agrees {a b : NameEntry} (h : a.agrees b = true) (ht : a.kind.isType) : a.name ≠ b.name := by
  intro hn
  cases hk : a.kind <;> simp_all [NameEntry.agrees, NameKind.isType]

/-- Declarations that agree give no two messages or enums the same name. -/
theorem nodup_namesOf (h : agreeAll es = true) :
    (namesOf .message es ++ namesOf .enum es).Nodup := by
  induction es with
  | nil => simp
  | cons e es ih =>
    obtain ⟨he, hes⟩ := List.pairwise_cons.mp (agreeAll_iff.mp h)
    have ih := ih (agreeAll_iff.mpr hes)
    have hfresh (ht : e.kind.isType) (k : NameKind) : e.name ∉ namesOf k es := by
      intro hm
      obtain ⟨d, hd, -, hn⟩ := mem_namesOf.mp hm
      exact ne_of_agrees (he d hd) ht hn.symm
    rw [namesOf_cons, namesOf_cons]
    cases hk : e.kind with
    | message =>
      have hf := hfresh (by rw [hk]; rfl)
      simpa [hf .message, hf .enum] using ih
    | enum =>
      have hf := hfresh (by rw [hk]; rfl)
      have hp : (namesOf .message es ++ e.name :: namesOf .enum es).Perm
          (e.name :: (namesOf .message es ++ namesOf .enum es)) := List.perm_middle
      simp only [reduceCtorEq, ↓reduceIte, List.nil_append, List.singleton_append]
      exact hp.nodup_iff.mpr (List.nodup_cons.mpr ⟨by simp [hf .message, hf .enum], ih⟩)
    | _ => simpa using ih

/-- In a catalog whose names agree, every message and every enum has a name of its own. -/
theorem Catalog.nodup_ofFiles (h : agreeAll (ofFiles decls).names = true) :
    ((ofFiles decls).messages.map (·.name) ++ (ofFiles decls).enums.map (·.name)).Nodup := by
  rw [← namesOf_message_ofFiles, ← namesOf_enum_ofFiles]
  exact nodup_namesOf h

end WireQuery
