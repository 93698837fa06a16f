import Mathlib
import WireQuery.Config

/-!
Loading a file is loading what the file holds that a search rule selects. The rule is told by cases: the path as it was
asked for, or that path in the first directory that has the file.
-/

namespace WireQuery

namespace Files

/-- The path leads to a file or a directory. -/
def Has (fs : Files) (path : String) : Prop := ∃ e, fs.find path = .ok e

/-- The path leads to a file that is no directory, whether or not it can be read. -/
def HasFile (fs : Files) (path : String) : Prop :=
  (∃ b, fs.find path = .ok (.file b)) ∨ ∃ fault, fs.find path = .ok (.unreadable fault)

theorem pathExists_iff {fs : Files} : fs.pathExists path = true ↔ fs.Has path := by
  unfold pathExists Has
  cases fs.find path <;> simp

theorem isFile_iff {fs : Files} : fs.isFile path = true ↔ fs.HasFile path := by
  unfold isFile HasFile
  cases fs.find path with
  | error e => simp
  | ok e => cases e <;> simp

end Files

namespace Config

/-- The request stands for itself: it starts at the root, or leads somewhere from the working directory. -/
def Stands (fs : Files) (path : String) : Prop := Files.isAbsolute path = true ∨ fs.Has path

/-- The path that is read for a request. -/
inductive Selects (c : Config) (fs : Files) (path : String) : String → Prop
  | requested (h : Stands fs path) : Selects c fs path path
  | found (h : ¬Stands fs path) (hc : c.bundlePath = before ++ dir :: after)
    (hb : ∀ d ∈ before, ¬fs.HasFile (join d path)) (hd : fs.HasFile (join dir path)) : Selects c fs path (join dir path)
  | missing (h : ¬Stands fs path) (hn : ∀ d ∈ c.bundlePath, ¬fs.HasFile (join d path)) : Selects c fs path path

variable {c : Config} {fs : Files}

theorem stands_iff : (Files.isAbsolute path || fs.pathExists path) = true ↔ Stands fs path := by
  rw [Bool.or_eq_true, Files.pathExists_iff]
  rfl

theorem resolve_of_stands (h : Stands fs path) : c.resolve fs path = path := by
  rw [resolve, if_pos (stands_iff.mpr h)]

theorem resolve_of_not_stands (h : ¬Stands fs path) :
    c.resolve fs path = ((c.bundlePath.map (join · path)).find? fs.isFile).getD path := by
  rw [resolve, if_neg (fun hs => h (stands_iff.mp hs))]

/-- No directory before the first that has the file is taken, and none after it is looked at. -/
theorem find?_joined (hb : ∀ d ∈ before, ¬fs.HasFile (join d path)) (hd : fs.HasFile (join dir path))
    (after : List String) :
    ((before ++ dir :: after).map (join · path)).find? fs.isFile = some (join dir path) := by
  rw [List.map_append, List.map_cons, List.find?_eq_some_iff_append]
  refine ⟨Files.isFile_iff.mpr hd, _, _, rfl, ?_⟩
  intro p hp
  obtain ⟨d, hm, rfl⟩ := List.mem_map.mp hp
  simpa [← Files.isFile_iff] using hb d hm

theorem find?_not_joined {dirs : List String} (hn : ∀ d ∈ dirs, ¬fs.HasFile (join d path)) :
    (dirs.map (join · path)).find? fs.isFile = none := by
  rw [List.find?_eq_none]
  intro p hp
  obtain ⟨d, hm, rfl⟩ := List.mem_map.mp hp
  exact fun h => hn d hm (Files.isFile_iff.mp h)

theorem Selects.resolve_eq (h : c.Selects fs path selected) : c.resolve fs path = selected := by
  cases h with
  | requested h => exact resolve_of_stands h
  | found h hc hb hd => rw [resolve_of_not_stands h, hc, find?_joined hb hd, Option.getD_some]
  | missing h hn => rw [resolve_of_not_stands h, find?_not_joined hn, Option.getD_none]

/-- Something is selected for every request. -/
theorem selects_resolve (c : Config) (fs : Files) (path : String) : c.Selects fs path (c.resolve fs path) := by
  by_cases h : Stands fs path
  · rw [resolve_of_stands h]
    exact .requested h
  · rw [resolve_of_not_stands h]
    cases hf : (c.bundlePath.map (join · path)).find? fs.isFile with
    | none =>
      refine .missing h (fun d hd hfile => ?_)
      exact List.find?_eq_none.mp hf _ (List.mem_map_of_mem hd) (Files.isFile_iff.mpr hfile)
    | some p =>
      obtain ⟨hp, before, after, hsplit, hb⟩ := List.find?_eq_some_iff_append.mp hf
      obtain ⟨dirs, rest, hc, rfl, hrest⟩ := List.map_eq_append_iff.mp hsplit
      obtain ⟨dir, later, rfl, rfl, rfl⟩ := List.map_eq_cons_iff.mp hrest
      refine .found h hc (fun d hd hfile => ?_) (Files.isFile_iff.mp hp)
      have hnot := hb _ (List.mem_map_of_mem hd)
      rw [Files.isFile_iff.mpr hfile] at hnot
      contradiction

theorem selects_iff : c.Selects fs path selected ↔ selected = c.resolve fs path :=
  ⟨fun h => h.resolve_eq.symm, fun h => h ▸ selects_resolve c fs path⟩

/-- What selects something that is there still selects it with more directories to search. -/
theorem Selects.append (h : c.Selects fs path selected) (hs : fs.Has selected) (dirs : List String) :
    { c with bundlePath := c.bundlePath ++ dirs }.Selects fs path selected := by
  cases h with
  | requested h => exact .requested h
  | found h hc hb hd => exact .found h (by rw [hc, List.append_assoc, List.cons_append]) hb hd
  | missing h hn => exact absurd (.inr hs) h

end Config

namespace Registry

theorem loadFile_of_read {r : Registry} {c : Config} {fs : Files} (hs : c.resolve fs path = selected)
    (h : fs.read selected = .ok b) : r.loadFile c fs .allow path = r.load .allow b := by
  simp [loadFile, load, Gate.check, hs, h]

theorem loadFile_of_fault {r : Registry} {c : Config} {fs : Files} (hs : c.resolve fs path = selected)
    (h : fs.read selected = .error fault) :
    r.loadFile c fs .allow path = ⟨r, .error (.bundleUnreadable path fault), []⟩ := by
  simp [loadFile, Gate.check, hs, h]

/-- One path is selected for each request, and loading the file does what loading its bytes does. If they cannot be read,
the error names the path as it was asked for. More directories to search change nothing for a request that selects
something that is there. -/
theorem load_file_loads_selected (r : Registry) (c : Config) (fs : Files) (path : String) :
    ∃ selected, (∀ p, c.Selects fs path p ↔ p = selected) ∧
      (∀ b, fs.read selected = .ok b → r.loadFile c fs .allow path = r.load .allow b) ∧
      (∀ fault, fs.read selected = .error fault →
        r.loadFile c fs .allow path = ⟨r, .error (.bundleUnreadable path fault), []⟩ ∧
        ∀ codec, (Error.bundleUnreadable path fault).message codec =
          "Could not load library '" ++ path ++ "': " ++ fault.message) ∧
      (fs.Has selected → ∀ dirs, r.loadFile { c with bundlePath := c.bundlePath ++ dirs } fs .allow path =
        r.loadFile c fs .allow path) := by
  refine ⟨c.resolve fs path, fun p => Config.selects_iff, ?_, ?_, ?_⟩
  · intro b hb
    exact loadFile_of_read rfl hb
  · intro fault hf
    exact ⟨loadFile_of_fault rfl hf, fun _ => rfl⟩
  · intro hs dirs
    have hmore := ((Config.selects_resolve c fs path).append hs dirs).resolve_eq
    cases hread : fs.read (c.resolve fs path) with
    | ok b => rw [loadFile_of_read hmore hread, loadFile_of_read rfl hread]
    | error fault => rw [loadFile_of_fault hmore hread, loadFile_of_fault rfl hread]

/-- Two directories have a file of one name, but the one in the first may not be read. -/
def lockedFirst : Files :=
  ((({} : Files).makeDirectory "d1").write "d2/x.pb" []).set ["tmp", "work", "d1", "x.pb"] (.unreadable .permissionDenied)

/-- A file that cannot be read is selected all the same, and the error does not name where it was found. -/
theorem locked_file_names_request :
    let c : Config := { bundlePath := ["d1", "d2"] }
    c.Selects lockedFirst "x.pb" "d1/x.pb" ∧ lockedFirst.read "d1/x.pb" = .error .permissionDenied ∧
      lockedFirst.read "d2/x.pb" = .ok [] ∧
      empty.loadFile c lockedFirst .allow "x.pb" =
        ⟨empty, .error (.bundleUnreadable "x.pb" .permissionDenied), []⟩ := by
  intro c
  have hread : lockedFirst.read "d1/x.pb" = .error .permissionDenied := by decide +kernel
  have hselects : c.Selects lockedFirst "x.pb" "d1/x.pb" := by
    have hsplit : c.bundlePath = [] ++ "d1" :: ["d2"] := rfl
    refine .found ?_ hsplit ?_ (.inr ⟨.permissionDenied, ?_⟩)
    · rw [← Config.stands_iff]
      decide +kernel
    · intro d hd
      contradiction
    · decide +kernel
  obtain ⟨selected, hselected, -, hfault, -⟩ := load_file_loads_selected empty c lockedFirst "x.pb"
  obtain rfl := (hselected _).mp hselects
  exact ⟨hselects, hread, by decide +kernel, (hfault _ hread).1⟩

end Registry

end WireQuery
