import WireQuery.Proofs.Message.Reread
import WireQuery.Schema.Builder

namespace WireQuery

/-- An enum with nothing but its values, of which none has options, and perhaps the leave to declare a number twice. -/
structure EnumDecl.Plain (e : EnumDecl) : Prop where
  values : ∀ v ∈ e.values, v.options = none
  options : e.options = none ∨ e.options = some [(2, .varint 1)]
  reserved : e.reserved = []

/-- A file in which only enums are declared. -/
structure FileDecl.OfEnums (f : FileDecl) : Prop where
  enums : ∀ e ∈ f.enums, e.Plain
  imports : f.imports = []
  messages : f.messages = []
  services : f.services = []
  extensions : f.extensions = []
  publicImports : f.publicImports = []
  weakImports : f.weakImports = []
  options : f.options = none

namespace Reader

theorem text?_text (s : String) : text? (Writer.text s) = some s := Utf8.decode?_encode s

theorem int32?_int32 (n : Int32) : int32? (Writer.int32 n) = some n := by
  rw [Writer.int32, int32?, toInt32_extend]

theorem length_of_message {fields : List Wire.Field} (hl : ((Writer.message fields).write n).length < 2 ^ 64) :
    (Wire.write fields).length < 2 ^ 64 := by
  have := Wire.length_le_writeBytes (Wire.write fields)
  simp only [Writer.message, Wire.Payload.write, List.length_append] at hl
  omega

/-- The fields of a written message are those that it was written from. -/
theorem body?_message {fields : List Wire.Field} (hr : Wire.Readable .plain () fields)
    (hl : ((Writer.message fields).write n).length < 2 ^ 64) :
    body? (levels + 1) (Writer.message fields) = some fields := Wire.read_write hr (length_of_message hl)

theorem message?_message {fields : List Wire.Field} (start : α) (field : Nat → α → Wire.Field → Option α)
    (hr : Wire.Readable .plain () fields) (hl : ((Writer.message fields).write n).length < 2 ^ 64) :
    message? start field (levels + 1) (Writer.message fields) = fields.foldlM (field levels) start := by
  rw [message?, body?_message hr hl, Option.bind_some, Nat.add_sub_cancel]

/-- Fields of one number are read into a list, one behind the other. -/
theorem foldlM_each (put : List β → α) {field : α → Wire.Field → Option α} {write : β → Wire.Payload} {xs : List β}
    (h : ∀ x ∈ xs, ∀ before, field (put before) (n, write x) = some (put (before ++ [x]))) (before : List β) :
    (Writer.each n write xs).foldlM field (put before) = some (put (before ++ xs)) := by
  induction xs generalizing before with
  | nil => simp [Writer.each]
  | cons x xs ih =>
    have ih := ih (fun y hy => h y (List.mem_cons_of_mem _ hy)) (before ++ [x])
    rw [Writer.each, List.map_cons, List.foldlM_cons, h x List.mem_cons_self]
    rw [List.append_assoc, List.singleton_append] at ih
    exact ih

/-- A field that may be missing is read where it is written. -/
theorem foldlM_optional (put : Option β → α) {field : α → Wire.Field → Option α} {write : β → Wire.Payload} {o : Option β}
    (h : ∀ x ∈ o, field (put none) (n, write x) = some (put (some x))) :
    (Writer.optional n write o).foldlM field (put none) = some (put o) := by
  cases o with
  | none => rfl
  | some x => simp [Writer.optional, h x rfl]

section Readable

variable {write : β → Wire.Payload}

theorem readable_each (hn : 0 < n ∧ n < 2 ^ 29) (h : ∀ x, ∃ b, write x = .bytes b) (xs : List β) :
    Wire.Readable .plain () (Writer.each n write xs) := by
  rw [Writer.each, Wire.readable_iff]
  intro y hy
  obtain ⟨x, -, rfl⟩ := List.mem_map.mp hy
  obtain ⟨b, hb⟩ := h x
  exact ⟨hn, by simp only [hb, Wire.Payload.Readable]⟩

theorem readable_optional (hn : 0 < n ∧ n < 2 ^ 29) (h : ∀ x, ∃ b, write x = .bytes b) (o : Option β) :
    Wire.Readable .plain () (Writer.optional n write o) := by
  have heach : Writer.optional n write o = Writer.each n write o.toList := by cases o <;> rfl
  rw [heach]
  exact readable_each hn h o.toList

end Readable

theorem message?_enumValue {v : EnumValueDecl} (hv : v.options = none)
    (hl : ((Writer.enumValue v).write n).length < 2 ^ 64) :
    message? { number := 0, name := "" } enumValue (levels + 1) (Writer.enumValue v) = some v := by
  obtain ⟨⟨number, name⟩, options⟩ := v
  subst hv
  have hr : Wire.Readable .plain () [(1, Writer.text name), (2, Writer.int32 number)] := by
    simp [Wire.Readable, Writer.text, Writer.int32, Wire.Payload.Readable, Wire.Framing.plain]
  refine (message?_message _ _ hr hl).trans ?_
  simp [enumValue, text?_text, int32?_int32]

/-- The leave to declare a number twice is an option that is known. -/
theorem options?_allowAlias (hl : ((Writer.message [(2, .varint 1)]).write n).length < 2 ^ 64) :
    options? .enum (levels + 1) none (Writer.message [(2, .varint 1)]) = some (some [(2, .varint 1)]) := by
  have hr : Wire.Readable .plain () [(2, .varint 1)] := by
    simp [Wire.Readable, Wire.Payload.Readable, Wire.Framing.plain]
  have hbody : body? (levels + 1) (Writer.message [(2, .varint 1)]) = some [(2, .varint 1)] := body?_message hr hl
  have hcheck : (Shape.options .enum).check? (levels + 1) (Writer.message [(2, .varint 1)]) = some () := by
    rw [Shape.options, Shape.check?, hbody]
    rfl
  rw [options?, hcheck, hbody]
  rfl

theorem message?_enum {e : EnumDecl} (he : e.Plain) (hl : ((Writer.enum e).write n).length < 2 ^ 64) :
    message? {} enum (levels + 2) (Writer.enum e) = some e := by
  obtain ⟨name, values, options, reserved⟩ := e
  obtain ⟨hv, ho, rfl⟩ := he
  dsimp only at hv ho
  let named : EnumDecl := { name := name }
  let valued : EnumDecl := { named with values := values }
  have hname : enum (levels + 1) {} (1, Writer.text name) = some named := by simp [enum, text?_text, named]
  have hvalues (hs : Wire.Short (Writer.each 2 Writer.enumValue values)) :
      (Writer.each 2 Writer.enumValue values).foldlM (enum (levels + 1)) named = some valued := by
    refine foldlM_each (fun vs => { named with values := vs }) (fun v hmem before => ?_) []
    have hl := hs _ (List.mem_map_of_mem hmem)
    simp [enum, message?_enumValue (hv v hmem) hl]
  have hoptions (hs : Wire.Short (Writer.optional 3 Writer.message options)) :
      (Writer.optional 3 Writer.message options).foldlM (enum (levels + 1)) valued =
        some ⟨name, values, options, []⟩ := by
    refine foldlM_optional (fun o => { valued with options := o }) (fun x hx => ?_)
    obtain rfl := hx
    obtain rfl : x = [(2, .varint 1)] := by simpa using ho
    simp [enum, options?_allowAlias (hs _ List.mem_cons_self)]
  have hr : Wire.Readable .plain () ([(1, Writer.text name)] ++ Writer.each 2 Writer.enumValue values ++
      Writer.optional 3 Writer.message options) :=
    .append (.append (readable_each (by decide) (fun _ => ⟨_, rfl⟩) [name])
      (readable_each (by decide) (fun _ => ⟨_, rfl⟩) values)) (readable_optional (by decide) (fun _ => ⟨_, rfl⟩) options)
  have hw : Writer.enum ⟨name, values, options, []⟩ = Writer.message ([(1, Writer.text name)] ++
      Writer.each 2 Writer.enumValue values ++ Writer.optional 3 Writer.message options) := by
    simp [Writer.enum, Writer.each]
  rw [hw] at hl ⊢
  have hs := Wire.short_of_length (length_of_message hl)
  rw [message?_message _ _ hr hl]
  simp [hname, hvalues hs.left.right, hoptions hs.right]

theorem message?_file {f : FileDecl} (hf : f.OfEnums) (hl : ((Writer.file f).write n).length < 2 ^ 64) :
    message? {} file (levels + 3) (Writer.file f) = some f := by
  obtain ⟨name, package, imports, messages, enums, services, extensions, publicImports, weakImports, dialect, options⟩ := f
  obtain ⟨he, rfl, rfl, rfl, rfl, rfl, rfl, rfl⟩ := hf
  dsimp only at he
  let named : FileDecl := { name := name }
  let placed : FileDecl := { named with package := package }
  let filled : FileDecl := { placed with enums := enums }
  have hname : file (levels + 2) {} (1, Writer.text name) = some named := by simp [file, text?_text, named]
  have hpackage : (Writer.optional 2 Writer.text package).foldlM (file (levels + 2)) named = some placed :=
    foldlM_optional (fun o => { named with package := o }) (fun x _ => by simp [file, text?_text])
  have henums (hs : Wire.Short (Writer.each 5 Writer.enum enums)) :
      (Writer.each 5 Writer.enum enums).foldlM (file (levels + 2)) placed = some filled := by
    refine foldlM_each (fun es => { placed with enums := es }) (fun e hmem before => ?_) []
    have hl := hs _ (List.mem_map_of_mem hmem)
    simp [file, message?_enum (he e hmem) hl]
  have hdialect : (Writer.optional 12 Writer.text dialect).foldlM (file (levels + 2)) filled =
      some ⟨name, package, [], [], enums, [], [], [], [], dialect, none⟩ :=
    foldlM_optional (fun o => { filled with dialect := o }) (fun x _ => by simp [file, text?_text])
  have hr : Wire.Readable .plain () ([(1, Writer.text name)] ++ Writer.optional 2 Writer.text package ++
      Writer.each 5 Writer.enum enums ++ Writer.optional 12 Writer.text dialect) :=
    .append (.append (.append (readable_each (by decide) (fun _ => ⟨_, rfl⟩) [name])
      (readable_optional (by decide) (fun _ => ⟨_, rfl⟩) package)) (readable_each (by decide) (fun _ => ⟨_, rfl⟩) enums))
      (readable_optional (by decide) (fun _ => ⟨_, rfl⟩) dialect)
  have hw : Writer.file ⟨name, package, [], [], enums, [], [], [], [], dialect, none⟩ =
      Writer.message ([(1, Writer.text name)] ++ Writer.optional 2 Writer.text package ++
        Writer.each 5 Writer.enum enums ++ Writer.optional 12 Writer.text dialect) := by
    simp [Writer.file, Writer.each, Writer.messageDecls, Writer.optional]
  rw [hw] at hl ⊢
  have hs := Wire.short_of_length (length_of_message hl)
  rw [message?_message _ _ hr hl]
  simp [hname, hpackage, henums hs.left.right, hdialect]

end Reader

/-- The files of a written bundle are those that it was written from. -/
theorem FileDecl.readBundle?_writeBundle {files : List FileDecl} (hf : ∀ f ∈ files, f.OfEnums)
    (hl : (writeBundle files).length < 2 ^ 64) : readBundle? (writeBundle files) = some files := by
  have hr : Wire.Readable .plain () (Writer.each 1 Writer.file files) :=
    Reader.readable_each (by decide) (fun _ => ⟨_, rfl⟩) files
  rw [readBundle?, writeBundle, Wire.read_write hr hl, Option.bind_some]
  refine Reader.foldlM_each id (fun f hmem before => ?_) []
  have hl := Wire.short_of_length hl _ (List.mem_map_of_mem hmem)
  have hfile : Reader.message? {} Reader.file (97 + 3) (Writer.file f) = some f := Reader.message?_file (hf f hmem) hl
  simp [Reader.fileSet, Reader.depth, hfile]

end WireQuery
