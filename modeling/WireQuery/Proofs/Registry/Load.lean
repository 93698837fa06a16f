import Mathlib
import WireQuery.Config
import WireQuery.Proofs.Schema.Linked
import WireQuery.Samples

/-!
A load is one of five things: refused by the gate, without bytes, without a schema, in conflict with what is
registered, or accepted. Only an accepted load changes the registry.
-/

namespace WireQuery

/-- Where the bytes of a bundle come from. -/
inductive BundleSource where
  | memory (b : Bytes)
  | file (config : Config) (fs : Files) (path : String)

namespace BundleSource

/-- An error names the path as it was asked for. -/
def bytes : BundleSource → Except Error Bytes
  | memory b => .ok b
  | file c fs path => (fs.read (c.resolve fs path)).mapError (.bundleUnreadable path)

end BundleSource

theorem TypeDescriptor.sameDefinition_refl (d : TypeDescriptor) : d.sameDefinition d = true := by
  cases d <;> simp [sameDefinition, MessageType.same, EnumType.same]

namespace Registry

def loadFrom (r : Registry) (gate : Gate) : BundleSource → Load
  | .memory b => r.load gate b
  | .file c fs path => r.loadFile c fs gate path

/-- What is registered under the name of a descriptor, if anything, has its definition. -/
def Compatible (r : Registry) (d : TypeDescriptor) : Prop :=
  ∀ known, r.get? d.name = some known → known.sameDefinition d = true

theorem accepts_iff {r : Registry} : r.accepts d = true ↔ r.Compatible d := by
  unfold accepts Compatible
  cases hg : r.get? d.name with
  | none => simp
  | some known => simp

/-- Adding a descriptor gives a meaning to its own name only, and only if it had none. -/
theorem get?_add (r : Registry) (report : LoadReport) (d : TypeDescriptor) (name : String) :
    (r.add report d).1.get? name =
      if d.name = name then some ((r.get? name).getD d) else r.get? name := by
  unfold add
  cases hg : r.get? d.name with
  | some known =>
    by_cases hn : d.name = name
    · subst hn
      simp [hg]
    · simp [hn]
  | none =>
    have happ : (⟨r.types ++ [(d.name, d)]⟩ : Registry).get? name =
        (r.get? name).or (List.lookup name [(d.name, d)]) := List.lookup_append
    by_cases hn : d.name = name
    · subst hn
      simp [happ, hg]
    · have hne : (name == d.name) = false := by simpa using fun h => hn h.symm
      simp [happ, hn, hne, List.lookup]

theorem addAll_concat (r : Registry) (ds : List TypeDescriptor) (d : TypeDescriptor) :
    r.addAll (ds ++ [d]) = (r.addAll ds).1.add (r.addAll ds).2 d := by
  simp [addAll, List.foldl_append]

/-- A name that was free stands for the first descriptor of that name. -/
theorem get?_addAll (r : Registry) (ds : List TypeDescriptor) (name : String) :
    (r.addAll ds).1.get? name = (r.get? name).or (ds.find? (·.name = name)) := by
  induction ds using List.reverseRecOn with
  | nil => simp [addAll]
  | append_singleton ds d ih =>
    rw [addAll_concat, get?_add, ih, List.find?_append, ← Option.or_assoc]
    by_cases hn : d.name = name
    · cases (r.get? name).or (ds.find? (·.name = name)) <;> simp [hn]
    · simp [hn]

/-- A type of a bundle that was compatible is registered afterwards, with its definition. -/
theorem get?_added {r : Registry} {p : Pool} (hp : p.Sound) (hc : ∀ d ∈ p.descriptors, r.Compatible d)
    (hd : d ∈ p.descriptors) :
    ∃ known, (r.addAll p.descriptors).1.get? d.name = some known ∧ known.sameDefinition d = true := by
  rw [get?_addAll, hp.find?_descriptor hd]
  cases hk : r.get? d.name with
  | some known => exact ⟨known, rfl, hc d hd known hk⟩
  | none => exact ⟨d, rfl, d.sameDefinition_refl⟩

/-- The five outcomes of a load. In the fourth, `d` is the first descriptor of the bundle that is in conflict. -/
inductive Loads (r : Registry) (gate : Gate) (source : BundleSource) : Load → Prop
  | refused (hg : gate.check = .error e) : Loads r gate source ⟨r, .error e, []⟩
  | unreadable (hg : gate.check = .ok ()) (hs : source.bytes = .error e) : Loads r gate source ⟨r, .error e, []⟩
  | invalid (hg : gate.check = .ok ()) (hs : source.bytes = .ok b) (hp : Pool.decode? b = none) :
    Loads r gate source ⟨r, .error (.invalidBundle b), []⟩
  | conflict (hg : gate.check = .ok ()) (hs : source.bytes = .ok b)
    (hd : TypeDescriptor.ofBundle b = .ok (before ++ d :: after))
    (hb : ∀ c ∈ before, r.Compatible c) (hc : ¬ r.Compatible d) :
    Loads r gate source ⟨r, .error (.schemaConflict d.name), [.conflict d.name]⟩
  | accepted (hg : gate.check = .ok ()) (hs : source.bytes = .ok b) (hd : TypeDescriptor.ofBundle b = .ok ds)
    (hc : ∀ d ∈ ds, r.Compatible d) : Loads r gate source ⟨(r.addAll ds).1, .ok (r.addAll ds).2, []⟩

theorem ofBundle_error (h : TypeDescriptor.ofBundle b = .error e) :
    Pool.decode? b = none ∧ e = .invalidBundle b := by
  unfold TypeDescriptor.ofBundle at h
  cases hp : Pool.decode? b with
  | none =>
    rw [hp] at h
    exact ⟨rfl, (Except.error.inj h).symm⟩
  | some p => simp [hp] at h

theorem ofBundle_ok (h : TypeDescriptor.ofBundle b = .ok ds) :
    ∃ p, Pool.decode? b = some p ∧ ds = p.descriptors := by
  unfold TypeDescriptor.ofBundle at h
  cases hp : Pool.decode? b with
  | none => simp [hp] at h
  | some p =>
    rw [hp] at h
    exact ⟨p, rfl, (Except.ok.inj h).symm⟩

theorem ofBundle_of_decode? (h : Pool.decode? b = some p) : TypeDescriptor.ofBundle b = .ok p.descriptors := by
  rw [TypeDescriptor.ofBundle, h]

theorem insert_loads (r : Registry) (hg : gate.check = .ok ()) (hs : source.bytes = .ok b) :
    r.Loads gate source (r.insert b) := by
  unfold insert
  cases hd : TypeDescriptor.ofBundle b with
  | error e =>
    obtain ⟨hp, rfl⟩ := ofBundle_error hd
    exact .invalid hg hs hp
  | ok ds =>
    dsimp only
    cases hf : ds.find? (fun d => !r.accepts d) with
    | none =>
      refine .accepted hg hs hd ?_
      intro d hm
      have := List.find?_eq_none.mp hf d hm
      exact accepts_iff.mp (by simpa using this)
    | some d =>
      obtain ⟨hp, before, after, rfl, hb⟩ := List.find?_eq_some_iff_append.mp hf
      refine .conflict hg hs hd ?_ ?_
      · intro c hm
        have := hb c hm
        exact accepts_iff.mp (by simpa using this)
      · intro hc
        rw [accepts_iff.mpr hc] at hp
        contradiction

/-- Every load is one of the five outcomes. -/
theorem loadFrom_loads (r : Registry) (gate : Gate) (source : BundleSource) :
    r.Loads gate source (r.loadFrom gate source) := by
  cases hg : gate.check with
  | error e =>
    have he : r.loadFrom gate source = ⟨r, .error e, []⟩ := by
      cases source <;> simp [loadFrom, load, loadFile, hg]
    rw [he]
    exact .refused hg
  | ok u =>
    cases source with
    | memory b =>
      have he : r.loadFrom gate (.memory b) = r.insert b := by simp [loadFrom, load, hg]
      rw [he]
      exact insert_loads r hg rfl
    | file c fs path =>
      cases hr : fs.read (c.resolve fs path) with
      | error fault =>
        have he : r.loadFrom gate (.file c fs path) = ⟨r, .error (.bundleUnreadable path fault), []⟩ := by
          simp [loadFrom, loadFile, hg, hr]
        rw [he]
        exact .unreadable hg (by simp [BundleSource.bytes, hr, Except.mapError])
      | ok b =>
        have he : r.loadFrom gate (.file c fs path) = r.insert b := by simp [loadFrom, loadFile, hg, hr]
        rw [he]
        exact insert_loads r hg (by simp [BundleSource.bytes, hr, Except.mapError])

theorem bytes_error (h : BundleSource.bytes source = .error e) :
    ∃ c fs path fault, source = .file c fs path ∧ fs.read (c.resolve fs path) = .error fault ∧
      e = .bundleUnreadable path fault := by
  cases source with
  | memory b => simp [BundleSource.bytes] at h
  | file c fs path =>
    cases hr : fs.read (c.resolve fs path) with
    | ok b => simp [BundleSource.bytes, hr, Except.mapError] at h
    | error fault =>
      simp only [BundleSource.bytes, hr, Except.mapError, Except.error.injEq] at h
      exact ⟨c, fs, path, fault, rfl, hr, h.symm⟩

theorem gate_error (h : Gate.check gate = .error e) : ∀ name, e ≠ .schemaConflict name := by
  cases gate <;> simp [Gate.check] at h <;> simp [← h]

/-- What is in conflict with the registry is no compatible descriptor of the bundle. -/
theorem not_all_compatible {r : Registry} (hc : ¬ r.Compatible d) :
    ¬ ∀ c ∈ before ++ d :: after, r.Compatible c := by
  intro h
  exact hc (h d (by simp))

/-- A descriptor in conflict is the first one of its bundle in only one way. -/
theorem first_conflict_unique {r : Registry} (h : before ++ d :: after = before' ++ d' :: after')
    (hb : ∀ c ∈ before, r.Compatible c) (hd : ¬ r.Compatible d)
    (hb' : ∀ c ∈ before', r.Compatible c) (hd' : ¬ r.Compatible d') : d = d' := by
  rcases List.append_eq_append_iff.mp h with ⟨mid, he, ht⟩ | ⟨mid, he, ht⟩
  · cases mid with
    | nil => simpa using (List.cons.inj ht).1
    | cons c mid =>
      have : d = c := (List.cons.inj ht).1
      exact absurd (hb' d (by simp [he, this])) hd
  · cases mid with
    | nil => simpa using (List.cons.inj ht).1.symm
    | cons c mid =>
      have : d' = c := (List.cons.inj ht).1
      exact absurd (hb d' (by simp [he, this])) hd'

/-- The outcome is settled by the gate, the bytes and the registry. -/
theorem Loads.unique {r : Registry} (h : r.Loads gate source l) (h' : r.Loads gate source l') : l = l' := by
  cases h with
  | refused hg =>
    cases h'
    case refused hg' => rw [Except.error.inj (hg.symm.trans hg')]
    all_goals simp_all
  | unreadable hg hs =>
    cases h'
    case unreadable hg' hs' => rw [Except.error.inj (hs.symm.trans hs')]
    all_goals simp_all
  | invalid hg hs hp =>
    cases h'
    case invalid hg' hs' hp' => rw [Except.ok.inj (hs.symm.trans hs')]
    all_goals simp_all [TypeDescriptor.ofBundle]
  | conflict hg hs hd hb hc =>
    cases h'
    case conflict hg' hs' hd' hb' hc' =>
      rw [Except.ok.inj (hs.symm.trans hs')] at hd
      rw [first_conflict_unique (Except.ok.inj (hd.symm.trans hd')) hb hc hb' hc']
    case accepted hg' hs' hd' hc' =>
      rw [Except.ok.inj (hs.symm.trans hs')] at hd
      rw [← Except.ok.inj (hd.symm.trans hd')] at hc'
      exact absurd hc' (not_all_compatible hc)
    all_goals simp_all [TypeDescriptor.ofBundle]
  | accepted hg hs hd hc =>
    cases h'
    case accepted hg' hs' hd' hc' =>
      rw [Except.ok.inj (hs.symm.trans hs')] at hd
      rw [Except.ok.inj (hd.symm.trans hd')]
    case conflict hg' hs' hd' hb' hc' =>
      rw [Except.ok.inj (hs.symm.trans hs')] at hd
      rw [Except.ok.inj (hd.symm.trans hd')] at hc
      exact absurd hc (not_all_compatible hc')
    all_goals simp_all [TypeDescriptor.ofBundle]

/-- What an accepted load adds is the pool of its bundle. -/
theorem loadFrom_ok {r : Registry} (h : (r.loadFrom gate source).result = .ok report) :
    ∃ b p, source.bytes = .ok b ∧ Pool.decode? b = some p ∧
      (r.loadFrom gate source).registry = (r.addAll p.descriptors).1 ∧ ∀ d ∈ p.descriptors, r.Compatible d := by
  have hl := loadFrom_loads r gate source
  generalize r.loadFrom gate source = l at h hl
  cases hl with
  | accepted hg hs hd hc =>
    obtain ⟨p, hp, rfl⟩ := ofBundle_ok hd
    exact ⟨_, p, hs, hp, rfl, hc⟩
  | _ => contradiction

theorem loadFrom_eq {r : Registry} (h : r.Loads gate source l) : r.loadFrom gate source = l :=
  (loadFrom_loads r gate source).unique h

namespace Loads

variable {r : Registry} {l : Load}

theorem ok_iff (h : r.Loads gate source l) : (∃ report, l.result = .ok report) ↔
    gate.check = .ok () ∧ ∃ b ds, source.bytes = .ok b ∧ TypeDescriptor.ofBundle b = .ok ds ∧
      ∀ d ∈ ds, r.Compatible d := by
  constructor
  · rintro ⟨report, ho⟩
    cases h with
    | accepted hg hs hd hc => exact ⟨hg, _, _, hs, hd, hc⟩
    | _ => contradiction
  · rintro ⟨hg, b, ds, hs, hd, hc⟩
    exact ⟨_, congrArg Load.result (h.unique (.accepted hg hs hd hc))⟩

/-- The registry after an accepted load: what it had stays, and the types of the bundle come to it. -/
theorem registry_of_ok (h : r.Loads gate source l) (ho : l.result = .ok report) :
    ∃ b ds, source.bytes = .ok b ∧ TypeDescriptor.ofBundle b = .ok ds ∧
      (∀ name, l.registry.get? name = (r.get? name).or (ds.find? (·.name = name))) ∧
      ∀ d ∈ ds, ∃ known, l.registry.get? d.name = some known ∧ known.sameDefinition d = true := by
  cases h with
  | accepted hg hs hd hc =>
    obtain ⟨p, hp, rfl⟩ := ofBundle_ok hd
    exact ⟨_, _, hs, hd, get?_addAll r _, fun d hm => get?_added (Pool.sound_of_decode? hp) hc hm⟩
  | _ => contradiction

theorem registry_of_error (h : r.Loads gate source l) (he : l.result = .error e) : l.registry = r := by
  cases h with
  | accepted hg hs hd hc => contradiction
  | _ => rfl

/-- Which error it is: the gate comes first, then the bytes, then the schema, then the first type in conflict. -/
theorem error_iff (h : r.Loads gate source l) : l.result = .error e ↔
    gate.check = .error e ∨
    gate.check = .ok () ∧
      ((∃ c fs path fault, source = .file c fs path ∧ fs.read (c.resolve fs path) = .error fault ∧
          e = .bundleUnreadable path fault) ∨
        ∃ b, source.bytes = .ok b ∧
          (Pool.decode? b = none ∧ e = .invalidBundle b ∨
            ∃ before d after, TypeDescriptor.ofBundle b = .ok (before ++ d :: after) ∧
              (∀ c ∈ before, r.Compatible c) ∧ ¬ r.Compatible d ∧ e = .schemaConflict d.name)) := by
  constructor
  · intro he
    cases h with
    | refused hg => exact .inl (Except.error.inj he ▸ hg)
    | unreadable hg hs => exact .inr ⟨hg, .inl (bytes_error (Except.error.inj he ▸ hs))⟩
    | invalid hg hs hp => exact .inr ⟨hg, .inr ⟨_, hs, .inl ⟨hp, (Except.error.inj he).symm⟩⟩⟩
    | conflict hg hs hd hb hc =>
      exact .inr ⟨hg, .inr ⟨_, hs, .inr ⟨_, _, _, hd, hb, hc, (Except.error.inj he).symm⟩⟩⟩
    | accepted hg hs hd hc => contradiction
  · rintro (hg | ⟨hg, ⟨c, fs, path, fault, rfl, hr, rfl⟩ | ⟨b, hs, ⟨hp, rfl⟩ | ⟨before, d, after, hd, hb, hc, rfl⟩⟩⟩)
    · rw [h.unique (.refused hg)]
    · have hs : (BundleSource.file c fs path).bytes = .error (.bundleUnreadable path fault) := by
        simp [BundleSource.bytes, hr, Except.mapError]
      rw [h.unique (.unreadable hg hs)]
    · rw [h.unique (.invalid hg hs hp)]
    · rw [h.unique (.conflict hg hs hd hb hc)]

theorem warnings_of_conflict (h : r.Loads gate source l) (he : l.result = .error (.schemaConflict name)) :
    l.warnings = [.conflict name] := by
  cases h with
  | refused hg => exact absurd (Except.error.inj he) (gate_error hg name)
  | unreadable hg hs =>
    obtain ⟨_, _, _, _, _, _, rfl⟩ := bytes_error hs
    simp at he
  | conflict hg hs hd hb hc => rw [← Error.schemaConflict.inj (Except.error.inj he)]
  | _ => simp at he

theorem no_warnings (h : r.Loads gate source l) (hn : ∀ name, l.result ≠ .error (.schemaConflict name)) :
    l.warnings = [] := by
  cases h with
  | conflict hg hs hd hb hc => exact absurd rfl (hn _)
  | _ => rfl

end Loads

/-- A load is accepted if the gate allows it, the bytes can be had, they hold a schema, and no type of it is
registered with another definition. Then all types of the bundle are registered, and nothing else changes. Otherwise the
registry stays as it was, the first of these that fails is the error, and only a conflict is told beside it, once. -/
theorem load_all_or_nothing (r : Registry) (gate : Gate) (source : BundleSource) :
    let l := r.loadFrom gate source
    ((∃ report, l.result = .ok report) ↔
      gate.check = .ok () ∧ ∃ b ds, source.bytes = .ok b ∧ TypeDescriptor.ofBundle b = .ok ds ∧
        ∀ d ∈ ds, r.Compatible d) ∧
    (∀ report, l.result = .ok report → ∃ b ds, source.bytes = .ok b ∧ TypeDescriptor.ofBundle b = .ok ds ∧
      (∀ name, l.registry.get? name = (r.get? name).or (ds.find? (·.name = name))) ∧
      ∀ d ∈ ds, ∃ known, l.registry.get? d.name = some known ∧ known.sameDefinition d = true) ∧
    (∀ e, l.result = .error e → l.registry = r) ∧
    (∀ e, l.result = .error e ↔
      gate.check = .error e ∨
      gate.check = .ok () ∧
        ((∃ c fs path fault, source = .file c fs path ∧ fs.read (c.resolve fs path) = .error fault ∧
            e = .bundleUnreadable path fault) ∨
          ∃ b, source.bytes = .ok b ∧
            (Pool.decode? b = none ∧ e = .invalidBundle b ∨
              ∃ before d after, TypeDescriptor.ofBundle b = .ok (before ++ d :: after) ∧
                (∀ c ∈ before, r.Compatible c) ∧ ¬ r.Compatible d ∧ e = .schemaConflict d.name))) ∧
    (∀ name, l.result = .error (.schemaConflict name) → l.warnings = [.conflict name]) ∧
    ((∀ name, l.result ≠ .error (.schemaConflict name)) → l.warnings = []) := by
  intro l
  have hl : r.Loads gate source l := loadFrom_loads r gate source
  refine ⟨hl.ok_iff, ?_, ?_, ?_, ?_, hl.no_warnings⟩
  · intro report ho
    exact hl.registry_of_ok ho
  · intro e he
    exact hl.registry_of_error he
  · intro e
    exact hl.error_iff
  · intro name he
    exact hl.warnings_of_conflict he

/-- Lists of nodes, and then another type of the name of a node. -/
def lateConflict : FileDecl :=
  ((FileDecl.named "late.proto").message ((MessageDecl.named "Chains").repeatedRef "first" 1 .message ".N")).message
    ((MessageDecl.named "N").optional "x" 2 Samples.int32)

def lateConflictBundle : BundleSource := .memory (FileDecl.writeBundle [lateConflict])

def chainBundle : BundleSource := .memory (FileDecl.writeBundle [Samples.chain])

/-- The last type of a bundle is in conflict, and the one before it is not registered either. -/
theorem late_conflict_adds_nothing :
    let r := (empty.loadFrom .allow chainBundle).registry
    let l := r.loadFrom .allow lateConflictBundle
    (TypeDescriptor.ofBundle (FileDecl.writeBundle [lateConflict])).toOption.map (·.map (·.name)) =
        some ["Chains", "N"] ∧
      r.get? "Chains" = none ∧ l.result = .error (.schemaConflict "N") ∧ l.registry = r ∧
      l.warnings = [.conflict "N"] := by
  have hl : ((empty.loadFrom .allow chainBundle).registry.loadFrom .allow lateConflictBundle).result =
      .error (.schemaConflict "N") := by cbv
  obtain ⟨-, -, hsame, -, hwarned, -⟩ :=
    load_all_or_nothing (empty.loadFrom .allow chainBundle).registry .allow lateConflictBundle
  exact ⟨by cbv, by cbv, hl, hsame _ hl, hwarned _ hl⟩

end Registry

end WireQuery
