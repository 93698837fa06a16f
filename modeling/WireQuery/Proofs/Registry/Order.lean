import WireQuery.Proofs.Registry.Names
import WireQuery.Proofs.Registry.Origin

/-!
Whether bundles are accepted one after the other is a matter of each bundle and of each two of them. So the order does
not matter: in every order they are accepted, or in none, and in every order they register the same.
-/

namespace WireQuery

namespace TypeDescriptor

theorem sameDefinition_symm {d e : TypeDescriptor} (h : d.sameDefinition e = true) : e.sameDefinition d = true :=
  sameDefinition_of_same h d.sameDefinition_refl

theorem sameDefinition_cases {d e : TypeDescriptor} (h : d.sameDefinition e = true) :
    (∃ m n, d = .message m ∧ e = .message n ∧ m.fields = n.fields) ∨
    (∃ m n, d = .enum m ∧ e = .enum n ∧ m.values = n.values) := by
  cases d with
  | message m =>
    cases e with
    | message n => exact .inl ⟨m, n, rfl, rfl, of_decide_eq_true ((Bool.and_eq_true _ _).mp h).2⟩
    | enum n => contradiction
  | enum m =>
    cases e with
    | message n => contradiction
    | enum n => exact .inr ⟨m, n, rfl, rfl, of_decide_eq_true ((Bool.and_eq_true _ _).mp h).2⟩

/-- Descriptors of one name have one definition. -/
def Coherent (ds : List TypeDescriptor) : Prop := ∀ d ∈ ds, ∀ e ∈ ds, d.name = e.name → d.sameDefinition e = true

theorem coherent_append : Coherent (ds ++ es) ↔
    Coherent ds ∧ Coherent es ∧ ∀ d ∈ ds, ∀ e ∈ es, d.name = e.name → d.sameDefinition e = true := by
  constructor
  · intro h
    refine ⟨?_, ?_, ?_⟩
    · intro d hd e he
      exact h d (List.mem_append_left _ hd) e (List.mem_append_left _ he)
    · intro d hd e he
      exact h d (List.mem_append_right _ hd) e (List.mem_append_right _ he)
    · intro d hd e he
      exact h d (List.mem_append_left _ hd) e (List.mem_append_right _ he)
  · rintro ⟨hds, hes, hboth⟩ d hd e he hn
    rcases List.mem_append.mp hd with hd | hd <;> rcases List.mem_append.mp he with he | he
    · exact hds d hd e he hn
    · exact hboth d hd e he hn
    · exact sameDefinition_symm (hboth e he d hd hn.symm)
    · exact hes d hd e he hn

theorem Coherent.perm (h : Coherent ds) (hp : ds.Perm es) : Coherent es := by
  intro d hd e he
  exact h d (hp.mem_iff.mpr hd) e (hp.mem_iff.mpr he)

/-- In any order of them, the first descriptor of a name has the same definition. -/
theorem Coherent.find? (h : Coherent ds) (hp : ds.Perm es) (name : String) :
    Option.Rel (fun d e => d.sameDefinition e = true) (ds.find? (·.name = name)) (es.find? (·.name = name)) := by
  cases hd : ds.find? (·.name = name) with
  | none =>
    have he : es.find? (·.name = name) = none := by
      rw [List.find?_eq_none] at hd ⊢
      intro e he
      exact hd e (hp.mem_iff.mpr he)
    rw [he]
    exact .none
  | some d =>
    have hmem := hp.mem_iff.mp (List.mem_of_find?_eq_some hd)
    have hname : d.name = name := by simpa using List.find?_some hd
    have hfound : (es.find? (·.name = name)).isSome := List.find?_isSome.mpr ⟨d, hmem, by simpa using hname⟩
    obtain ⟨e, he⟩ := Option.isSome_iff_exists.mp hfound
    have hother : e.name = name := by simpa using List.find?_some he
    rw [he]
    exact .some (h.perm hp d hmem e (List.mem_of_find?_eq_some he) (hname.trans hother.symm))

end TypeDescriptor

open TypeDescriptor (Coherent)

theorem Pool.Sound.coherent {p : Pool} (hp : p.Sound) : Coherent p.descriptors := by
  intro d hd e he hn
  rw [eq_of_nodup_map hp.nodup_descriptors hd he hn]
  exact e.sameDefinition_refl

/-- What bundles list, one after the other. -/
def listed (bundles : List Bytes) : List TypeDescriptor := (bundles.filterMap Pool.decode?).flatMap (·.descriptors)

theorem listed_cons (hp : Pool.decode? b = some p) : listed (b :: bundles) = p.descriptors ++ listed bundles := by
  simp [listed, hp]

theorem listed_perm (h : bs.Perm cs) : (listed bs).Perm (listed cs) := (h.filterMap _).flatMap_right _

namespace Registry

/-- Loads of bundles, one after the other, that a host allows. -/
def loads (bundles : List Bytes) : List Request := bundles.map (fun b => .load .allow (.memory b))

/-- Each load of bundles, one after the other, succeeds. -/
def AcceptsAll (r : Registry) : List Bytes → Prop
  | [] => True
  | b :: bundles => (∃ report, (r.load .allow b).result = .ok report) ∧ (r.load .allow b).registry.AcceptsAll bundles

variable {r : Registry}

theorem decode?_of_load (h : (r.load .allow b).result = .ok report) : ∃ p, Pool.decode? b = some p := by
  have hl : (r.loadFrom .allow (.memory b)).result = .ok report := h
  obtain ⟨b', p, hb, hp, -⟩ := loadFrom_ok hl
  obtain rfl := Except.ok.inj hb
  exact ⟨p, hp⟩

theorem load_ok_iff (hp : Pool.decode? b = some p) :
    (∃ report, (r.load .allow b).result = .ok report) ↔ ∀ d ∈ p.descriptors, r.Compatible d := by
  have hb : BundleSource.bytes (.memory b) = .ok b := rfl
  have hd := ofBundle_of_decode? hp
  constructor
  · intro h
    obtain ⟨-, b', ds, hb', hd', hc⟩ := (loadFrom_loads r .allow (.memory b)).ok_iff.mp h
    obtain rfl := Except.ok.inj (hb.symm.trans hb')
    obtain rfl := Except.ok.inj (hd.symm.trans hd')
    exact hc
  · intro hc
    exact (loadFrom_loads r .allow (.memory b)).ok_iff.mpr ⟨rfl, b, p.descriptors, hb, hd, hc⟩

theorem get?_load (h : (r.load .allow b).result = .ok report) (hp : Pool.decode? b = some p) (name : String) :
    (r.load .allow b).registry.get? name = (r.get? name).or (p.descriptors.find? (·.name = name)) := by
  have hl : (r.loadFrom .allow (.memory b)).result = .ok report := h
  rw [← get?_alone hl rfl hp]
  exact get?_loadFrom hl name

/-- After a load a descriptor is compatible if it was before, and with what the bundle lists. -/
theorem compatible_load (h : (r.load .allow b).result = .ok report) (hp : Pool.decode? b = some p) :
    (r.load .allow b).registry.Compatible e ↔
      r.Compatible e ∧ ∀ d ∈ p.descriptors, d.name = e.name → d.sameDefinition e = true := by
  have hsound := Pool.sound_of_decode? hp
  have hlisted := (load_ok_iff hp).mp ⟨report, h⟩
  have hget := get?_load h hp e.name
  constructor
  · intro hc
    constructor
    · intro known hk
      rw [hk] at hget
      exact hc known hget
    · intro d hd hn
      cases hk : r.get? e.name with
      | some known =>
        rw [hk] at hget
        exact TypeDescriptor.sameDefinition_of_same (hlisted d hd known (hn ▸ hk)) (hc known hget)
      | none =>
        rw [hk, Option.none_or, ← hn, hsound.find?_descriptor hd, hn] at hget
        exact hc d hget
  · rintro ⟨hbefore, hbundle⟩ known hk
    rw [hget] at hk
    cases hr : r.get? e.name with
    | some first =>
      rw [hr] at hk
      exact hbefore known (hr.trans hk)
    | none =>
      rw [hr] at hk
      exact hbundle known (List.mem_of_find?_eq_some hk) (by simpa using List.find?_some hk)

theorem not_accepts_invalid (hp : Pool.decode? b = none) : ¬ r.AcceptsAll (b :: bundles) := by
  rintro ⟨⟨report, h⟩, -⟩
  obtain ⟨p, hp'⟩ := decode?_of_load h
  rw [hp] at hp'
  contradiction

/-- Bundles are accepted if each is a schema, nothing they list is in conflict with what is registered, and no two
things they list are in conflict with each other. -/
theorem acceptsAll_iff : r.AcceptsAll bundles ↔
    (∀ b ∈ bundles, (Pool.decode? b).isSome) ∧ (∀ d ∈ listed bundles, r.Compatible d) ∧
      Coherent (listed bundles) := by
  induction bundles generalizing r with
  | nil => simp [AcceptsAll, listed, Coherent]
  | cons b bundles ih =>
    cases hp : Pool.decode? b with
    | none =>
      constructor
      · intro h
        exact absurd h (not_accepts_invalid hp)
      · intro h
        have := h.1 b (by simp)
        simp [hp] at this
    | some p =>
      have hcoherent := (Pool.sound_of_decode? hp).coherent
      rw [AcceptsAll, ih, listed_cons hp, TypeDescriptor.coherent_append, List.forall_mem_cons, List.forall_mem_append,
        hp]
      constructor
      · rintro ⟨⟨report, hload⟩, hvalid, hrest, hpairs⟩
        have hrest := fun d hd => (compatible_load hload hp).mp (hrest d hd)
        refine ⟨⟨rfl, hvalid⟩, ⟨(load_ok_iff hp).mp ⟨report, hload⟩, fun d hd => (hrest d hd).1⟩, hcoherent, hpairs, ?_⟩
        intro d hd e he
        exact (hrest e he).2 d hd
      · rintro ⟨⟨-, hvalid⟩, ⟨hfirst, hrest⟩, -, hpairs, hboth⟩
        obtain ⟨report, hload⟩ := (load_ok_iff hp).mpr hfirst
        refine ⟨⟨report, hload⟩, hvalid, ?_, hpairs⟩
        intro e he
        exact (compatible_load hload hp).mpr ⟨hrest e he, fun d hd => hboth d hd e he⟩

/-- After bundles that are all accepted, a free name stands for the first thing of that name that they list. -/
theorem get?_loads (h : r.AcceptsAll bundles) (name : String) :
    (r.run (loads bundles)).get? name = (r.get? name).or ((listed bundles).find? (·.name = name)) := by
  induction bundles generalizing r with
  | nil => simp [loads, run, listed]
  | cons b bundles ih =>
    obtain ⟨⟨report, hload⟩, hrest⟩ := h
    obtain ⟨p, hp⟩ := decode?_of_load hload
    calc (r.run (loads (b :: bundles))).get? name
        = ((r.load .allow b).registry.run (loads bundles)).get? name := rfl
      _ = (r.get? name).or ((p.descriptors.find? (·.name = name)).or ((listed bundles).find? (·.name = name))) := by
          rw [ih hrest, get?_load hload hp, Option.or_assoc]
      _ = (r.get? name).or ((listed (b :: bundles)).find? (·.name = name)) := by
          rw [listed_cons hp, List.find?_append]

theorem acceptsAll_perm (h : bs.Perm cs) (ha : empty.AcceptsAll bs) : empty.AcceptsAll cs := by
  obtain ⟨hvalid, -, hcoherent⟩ := acceptsAll_iff.mp ha
  refine acceptsAll_iff.mpr ⟨?_, ?_, hcoherent.perm (listed_perm h)⟩
  · intro b hb
    exact hvalid b (h.mem_iff.mpr hb)
  · intro d _ known hk
    contradiction

/-- Both find nothing under a name, or descriptors of one definition. -/
def SameMeaning (r s : Registry) (name : String) : Prop :=
  Option.Rel (fun d e => d.sameDefinition e = true) (r.get? name) (s.get? name)

theorem sameMeaning_of_perm (h : bs.Perm cs) (ha : empty.AcceptsAll bs) (name : String) :
    (empty.run (loads bs)).SameMeaning (empty.run (loads cs)) name := by
  unfold SameMeaning
  rw [get?_loads ha, get?_loads (acceptsAll_perm h ha)]
  exact (acceptsAll_iff.mp ha).2.2.find? (listed_perm h) name

namespace SameMeaning

variable {s : Registry}

theorem inv (h : r.SameMeaning s name) : r.get? name = none ∧ s.get? name = none ∨
    ∃ d e, r.get? name = some d ∧ s.get? name = some e ∧ d.sameDefinition e = true := by
  unfold SameMeaning at h
  generalize r.get? name = x at h
  generalize s.get? name = y at h
  cases h with
  | none => exact .inl ⟨rfl, rfl⟩
  | some h => exact .inr ⟨_, _, rfl, rfl, h⟩

theorem kind (h : r.SameMeaning s name) : (r.get? name).map (·.kind) = (s.get? name).map (·.kind) := by
  obtain ⟨hr, hs⟩ | ⟨d, e, hr, hs, hsame⟩ := h.inv
  · rw [hr, hs]
  · rw [hr, hs]
    obtain ⟨m, n, rfl, rfl, -⟩ | ⟨m, n, rfl, rfl, -⟩ := TypeDescriptor.sameDefinition_cases hsame <;> rfl

theorem isSome (h : r.SameMeaning s name) : (r.get? name).isSome = (s.get? name).isSome := by
  simpa using congrArg Option.isSome h.kind

theorem fields (h : r.SameMeaning s name) : (r.message? name).map (·.fields) = (s.message? name).map (·.fields) := by
  unfold message?
  obtain ⟨hr, hs⟩ | ⟨d, e, hr, hs, hsame⟩ := h.inv
  · rw [hr, hs]
  · rw [hr, hs]
    obtain ⟨m, n, rfl, rfl, hfields⟩ | ⟨m, n, rfl, rfl, -⟩ := TypeDescriptor.sameDefinition_cases hsame
    · exact congrArg Except.ok hfields
    · rfl

theorem values (h : r.SameMeaning s name) : (r.enum? name).map (·.values) = (s.enum? name).map (·.values) := by
  unfold enum?
  obtain ⟨hr, hs⟩ | ⟨d, e, hr, hs, hsame⟩ := h.inv
  · rw [hr, hs]
  · rw [hr, hs]
    obtain ⟨m, n, rfl, rfl, -⟩ | ⟨m, n, rfl, rfl, hvalues⟩ := TypeDescriptor.sameDefinition_cases hsame
    · rfl
    · exact congrArg Except.ok hvalues

end SameMeaning

/-- Bundles that are loaded in two orders are all accepted in both or in neither. If they are, the registries have the
same size, list the same names and give each name the same definition. -/
theorem load_order_irrelevant {bs cs : List Bytes} (h : bs.Perm cs) :
    (empty.AcceptsAll bs ↔ empty.AcceptsAll cs) ∧
    (empty.AcceptsAll bs →
      let r := empty.run (loads bs)
      let s := empty.run (loads cs)
      r.size = s.size ∧ r.messageNames = s.messageNames ∧ r.enumNames = s.enumNames ∧
      ∀ name, r.SameMeaning s name ∧ (r.message? name).map (·.fields) = (s.message? name).map (·.fields) ∧
        (r.enum? name).map (·.values) = (s.enum? name).map (·.values)) := by
  refine ⟨⟨acceptsAll_perm h, acceptsAll_perm h.symm⟩, ?_⟩
  intro ha r s
  have hr : r.Keyed := empty_keyed.run _
  have hs : s.Keyed := empty_keyed.run _
  have hsame (name : String) : r.SameMeaning s name := sameMeaning_of_perm h ha name
  have hkind (name : String) := (hsame name).kind
  refine ⟨hr.size_congr hs (fun name => (hsame name).isSome), hr.namesOf_congr hs hkind _, hr.namesOf_congr hs hkind _, ?_⟩
  intro name
  exact ⟨hsame name, (hsame name).fields, (hsame name).values⟩

theorem chains_in_either_order :
    let bs := [FileDecl.writeBundle [Samples.chain], FileDecl.writeBundle [Samples.chains]]
    let cs := [FileDecl.writeBundle [Samples.chains], FileDecl.writeBundle [Samples.chain]]
    empty.AcceptsAll bs ∧ empty.AcceptsAll cs ∧
      (empty.run (loads bs)).messageNames = (empty.run (loads cs)).messageNames ∧
      (empty.run (loads bs)).SameMeaning (empty.run (loads cs)) "N" := by
  intro bs cs
  have hfirst : ((empty.load .allow (FileDecl.writeBundle [Samples.chain])).result).isOk = true := by cbv
  have hsecond : (((empty.load .allow (FileDecl.writeBundle [Samples.chain])).registry.load .allow
      (FileDecl.writeBundle [Samples.chains])).result).isOk = true := by cbv
  have ha : empty.AcceptsAll bs := ⟨exists_of_isOk hfirst, exists_of_isOk hsecond, trivial⟩
  obtain ⟨haccepts, hagree⟩ := load_order_irrelevant (List.Perm.swap _ _ [] : bs.Perm cs)
  obtain ⟨-, hnames, -, hmeaning⟩ := hagree ha
  exact ⟨ha, haccepts.mp ha, hnames, (hmeaning "N").1⟩

end Registry

end WireQuery
