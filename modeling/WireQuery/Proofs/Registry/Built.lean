import WireQuery.Proofs.Registry.Load
import WireQuery.Proofs.Schema.EnumFiles

namespace WireQuery

/-- An enum built from its declarations one after the other. -/
def EnumDecl.built (name : String) (aliases : Bool) (values : List EnumValue) : EnumDecl :=
  let e := values.foldl (fun e v => e.value v.name v.number) (named name)
  if aliases then e.allowAlias else e

/-- A file built with one enum, in a package or in none. -/
def FileDecl.built (file : String) (package : Option String) (e : EnumDecl) : FileDecl :=
  match package with
  | some p => ((named file).inPackage p).enumeration e
  | none => (named file).enumeration e

/-- The name of a type behind that of its package. -/
def fullName : Option String → String → String
  | some package, name => package ++ "." ++ name
  | none, name => name

namespace EnumDecl

theorem foldl_value (e : EnumDecl) (values : List EnumValue) :
    values.foldl (fun e v => e.value v.name v.number) e =
      { e with values := e.values ++ values.map (fun v => { toEnumValue := v }) } := by
  induction values generalizing e with
  | nil => simp
  | cons v values ih =>
    rw [List.foldl_cons, ih]
    simp [value]

theorem built_eq (name : String) (aliases : Bool) (values : List EnumValue) :
    built name aliases values = {
      name := name
      values := values.map (fun v => { toEnumValue := v })
      options := if aliases then some [(2, .varint 1)] else none } := by
  rw [built, foldl_value]
  cases aliases <;> rfl

theorem built_plain (name : String) (aliases : Bool) (values : List EnumValue) : (built name aliases values).Plain := by
  rw [built_eq]
  refine ⟨by simp, ?_, rfl⟩
  cases aliases
  · exact .inl rfl
  · exact .inr rfl

theorem map_built_values (name : String) (aliases : Bool) (values : List EnumValue) (g : EnumValue → α) :
    (built name aliases values).values.map (fun v => g v.toEnumValue) = values.map g := by
  simp [built_eq, Function.comp_def]

theorem built_allowsAlias (name : String) (aliases : Bool) (values : List EnumValue) :
    (built name aliases values).allowsAlias = aliases := by
  rw [built_eq, allowsAlias]
  cases aliases <;> rfl

end EnumDecl

namespace FileDecl

variable {file : String} {package : Option String} {e : EnumDecl}

theorem built_enums : (built file package e).enums = [e] := by cases package <;> rfl

theorem built_ofEnums (he : e.Plain) : (built file package e).OfEnums := by
  have hplain : ∀ d ∈ [e], d.Plain := by simpa using he
  cases package <;> exact ⟨hplain, rfl, rfl, rfl, rfl, rfl, rfl, rfl⟩

theorem built_isProto3 : (built file package e).isProto3 = false := by cases package <;> rfl

theorem join_built_scope (hp : package ≠ some "") (name : String) :
    Scope.join (built file package e).scope name = fullName package name := by
  cases package with
  | none => rfl
  | some p => exact if_neg (fun h : p = "" => hp (congrArg some h))

end FileDecl

namespace Registry

/-- Where nothing was registered, the one enum of a bundle is afterwards. -/
theorem load_empty_enum (h : Pool.decode? b = some ⟨[], [⟨name, values⟩]⟩) :
    empty.load .allow b = ⟨⟨[(name, .enum (.ofValues name values))]⟩, .ok ⟨[name], 0⟩, []⟩ := by
  have haccepted : empty.Loads .allow (.memory b) _ :=
    .accepted rfl rfl (ofBundle_of_decode? h) (by simp [Compatible, empty, get?])
  exact loadFrom_eq haccepted

/-- An enum that is built from its declarations, in a package or in none, is registered by loading the bytes of its file
where nothing was before, and is then listed by just these declarations in the order given. There is at least one of
them, their names differ from each other and from that of the enum, and their numbers differ unless it may declare one
twice. Nothing else is asked of the names, and the file may be as long as its length can be written. -/
theorem built_enum_listed (file : String) (package : Option String) (name : String) (aliases : Bool)
    (values : List EnumValue) (hp : package ≠ some "") (hv : values ≠ [])
    (hnames : (name :: values.map (·.name)).Nodup) (hnumbers : aliases = true ∨ (values.map (·.number)).Nodup)
    (hl : (FileDecl.writeBundle [.built file package (.built name aliases values)]).length < 2 ^ 64) :
    let l := empty.load .allow (FileDecl.writeBundle [.built file package (.built name aliases values)])
    l.result = .ok ⟨[fullName package name], 0⟩ ∧ l.registry.listEnum (fullName package name) .all = .ok values := by
  have hname : (EnumDecl.built name aliases values).name = name := by rw [EnumDecl.built_eq]
  have hmap {α : Type} (g : EnumValue → α) := EnumDecl.map_built_values name aliases values g
  have hdecode := Pool.decode?_one (FileDecl.built_ofEnums (EnumDecl.built_plain name aliases values))
    FileDecl.built_isProto3 FileDecl.built_enums (by simpa [EnumDecl.built_eq] using hv)
    (by rw [hname, hmap]; exact hnames) (by rw [EnumDecl.built_allowsAlias, hmap]; exact hnumbers) hl
  rw [FileDecl.join_built_scope hp, hname, hmap (·), List.map_id'] at hdecode
  rw [load_empty_enum hdecode]
  refine ⟨rfl, ?_⟩
  simp [listEnum, enum?, get?, EnumType.list, EnumType.ofValues, Except.map]

/-- Numbers below zero and a number that is declared twice. -/
theorem built_levels_listed :
    let values : List EnumValue := [⟨-1, "LOW"⟩, ⟨7, "HIGH"⟩, ⟨-1, "LEAST"⟩]
    let l := empty.load .allow (FileDecl.writeBundle
      [.built "levels.proto" (some "shop.items") (.built "Level" true values)])
    l.result = .ok ⟨["shop.items.Level"], 0⟩ ∧ l.registry.listEnum "shop.items.Level" .all = .ok values :=
  built_enum_listed "levels.proto" (some "shop.items") "Level" true [⟨-1, "LOW"⟩, ⟨7, "HIGH"⟩, ⟨-1, "LEAST"⟩]
    (by decide) (by decide) (by decide) (.inl rfl) (by decide +kernel)

end Registry

end WireQuery
