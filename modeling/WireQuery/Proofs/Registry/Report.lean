import WireQuery.Proofs.Registry.Closed

namespace WireQuery

namespace Registry

variable {r : Registry} {ds : List TypeDescriptor}

/-- The state after descriptors were added to a registry tells which of their names were free. -/
structure Reports (r : Registry) (ds : List TypeDescriptor) (s : Registry × LoadReport) : Prop where
  added : s.2.added = (ds.map (·.name)).filter (fun name => (r.get? name).isNone)
  counted : s.2.added.length + s.2.alreadyPresent = ds.length
  size : s.1.size = r.size + s.2.added.length

theorem Reports.nil (r : Registry) : Reports r [] (r, {}) := ⟨rfl, rfl, rfl⟩

/-- One more descriptor is reported, if its name stands for what it stood for at the start. -/
theorem Reports.add {s : Registry × LoadReport} (h : Reports r ds s) (hd : s.1.get? d.name = r.get? d.name) :
    Reports r (ds ++ [d]) (s.1.add s.2 d) := by
  have hfilter : ((ds ++ [d]).map (·.name)).filter (fun name => (r.get? name).isNone) =
      s.2.added ++ [d.name].filter (fun name => (r.get? name).isNone) := by
    rw [List.map_append, List.filter_append, ← h.added]
    rfl
  unfold Registry.add
  rw [hd]
  cases hg : r.get? d.name with
  | some known =>
    refine ⟨?_, ?_, h.size⟩
    · simpa [hg] using hfilter.symm
    · simp [← h.counted, Nat.add_assoc]
  | none =>
    refine ⟨?_, ?_, ?_⟩
    · simpa [hg] using hfilter.symm
    · simp [← h.counted, Nat.add_right_comm]
    · simpa [Registry.size, ← Nat.add_assoc] using h.size

/-- Descriptors of different names are each reported for the registry that they are added to. -/
theorem addAll_reports (r : Registry) (h : (ds.map (·.name)).Nodup) : Reports r ds (r.addAll ds) := by
  induction ds using List.reverseRecOn with
  | nil => exact .nil r
  | append_singleton ds d ih =>
    rw [List.map_append, List.nodup_append] at h
    obtain ⟨hds, -, hnew⟩ := h
    have hfind : ds.find? (·.name = d.name) = none := by
      rw [List.find?_eq_none]
      intro e he
      simpa using hnew _ (List.mem_map_of_mem he) d.name (by simp)
    rw [addAll_concat]
    apply (ih hds).add
    rw [get?_addAll, hfind, Option.or_none]

/-- Nothing is added where everything is present. -/
theorem addAll_of_present (h : ∀ d ∈ ds, (r.get? d.name).isSome) : r.addAll ds = (r, ⟨[], ds.length⟩) := by
  induction ds using List.reverseRecOn with
  | nil => rfl
  | append_singleton ds d ih =>
    have hd := h d (by simp)
    rw [addAll_concat, ih (fun e he => h e (by simp [he])), add, if_pos hd, List.length_append]
    rfl

/-- What was accepted once is accepted again after whatever was done since, and changes nothing. -/
theorem Accepted.again (h : Accepted history p) (hg : gate.check = .ok ()) (hb : source.bytes = .ok b)
    (hp : Pool.decode? b = some p) : (empty.run history).loadFrom gate source =
      ⟨empty.run history, .ok ⟨[], p.descriptors.length⟩, []⟩ := by
  have hd := ofBundle_of_decode? hp
  have hcompatible : ∀ d ∈ p.descriptors, (empty.run history).Compatible d := by
    intro d hd known hk
    obtain ⟨known', hk', hsame⟩ := h.registered hd
    rw [Option.some.inj (hk.symm.trans hk')]
    exact hsame
  have hpresent : ∀ d ∈ p.descriptors, ((empty.run history).get? d.name).isSome := by
    intro d hd
    obtain ⟨known, hk, -⟩ := h.registered hd
    simp [hk]
  rw [loadFrom_eq (.accepted hg hb hd hcompatible), addAll_of_present hpresent]

/-- An accepted load reports the names of its bundle that were free, in the order of the bundle and each once, and
counts the others. The registry grows by those names, and gives every name of the bundle the definition that it has
there. From then on the same bytes are accepted at any time, report everything as present and change nothing. -/
theorem each_type_reported_once (h : ((empty.run history).loadFrom gate source).result = .ok report) :
    let r := empty.run history
    let s := (r.loadFrom gate source).registry
    ∃ b ds, source.bytes = .ok b ∧ TypeDescriptor.ofBundle b = .ok ds ∧
      report.added = (ds.map (·.name)).filter (fun name => (r.get? name).isNone) ∧ report.added.Nodup ∧
      report.added.length + report.alreadyPresent = ds.length ∧ s.size = r.size + report.added.length ∧
      (∀ d ∈ ds, ∃ known, s.get? d.name = some known ∧ known.sameDefinition d = true) ∧
      ∀ later gate' source', gate'.check = .ok () → source'.bytes = .ok b →
        (s.run later).loadFrom gate' source' = ⟨s.run later, .ok ⟨[], ds.length⟩, []⟩ := by
  intro r s
  obtain ⟨b, p, hb, hp, -, hc⟩ := loadFrom_ok h
  have hd := ofBundle_of_decode? hp
  have hgate := ((loadFrom_loads r gate source).ok_iff.mp ⟨report, h⟩).1
  have hload : r.loadFrom gate source = ⟨(r.addAll p.descriptors).1, .ok (r.addAll p.descriptors).2, []⟩ :=
    loadFrom_eq (.accepted hgate hb hd hc)
  have hs : s = (r.addAll p.descriptors).1 := congrArg Load.registry hload
  obtain rfl : (r.addAll p.descriptors).2 = report := by
    rw [show (empty.run history).loadFrom gate source = _ from hload] at h
    exact Except.ok.inj h
  have hnames := (Pool.sound_of_decode? hp).nodup_descriptors
  have hreports := addAll_reports r hnames
  have haccepted (later : List Request) : Accepted (history ++ .load gate source :: later) p := .intro h hb hp
  refine ⟨b, p.descriptors, hb, hd, hreports.added, ?_, hreports.counted, hs ▸ hreports.size, ?_, ?_⟩
  · rw [hreports.added]
    exact hnames.filter _
  · intro d hd
    have hregistered := (haccepted []).registered hd
    rwa [run_load] at hregistered
  · intro later gate' source' hg' hb'
    have hagain := (haccepted later).again hg' hb' hp
    rwa [run_load] at hagain

def chainsBundle : BundleSource := .memory (FileDecl.writeBundle [Samples.chains])

/-- Nodes that are registered are only counted, and so is all when the lists of them are loaded again. -/
theorem chains_reported_once :
    let s := ((empty.run [chainLoad]).loadFrom .allow chainsBundle).registry
    ((empty.run [chainLoad]).loadFrom .allow chainsBundle).result = .ok ⟨["Chains"], 1⟩ ∧
      s.size = (empty.run [chainLoad]).size + 1 ∧
      ∃ n, (s.run [.size, chainLoad]).loadFrom .allow chainsBundle = ⟨s.run [.size, chainLoad], .ok ⟨[], n⟩, []⟩ := by
  intro s
  have hload : ((empty.run [chainLoad]).loadFrom .allow chainsBundle).result = .ok ⟨["Chains"], 1⟩ := by cbv
  obtain ⟨b, ds, hb, -, -, -, -, hsize, -, hagain⟩ := each_type_reported_once hload
  exact ⟨hload, hsize, ds.length, hagain [.size, chainLoad] .allow chainsBundle rfl hb⟩

end Registry

end WireQuery
