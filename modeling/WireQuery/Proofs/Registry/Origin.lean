import WireQuery.Proofs.Registry.Run
import WireQuery.Proofs.Schema.Linked

/-!
Where the types of a registry come from. Each was given its meaning by the first accepted load that lists it, and that
load alone would give it the same. What later loads list under its name is listed the same way.
-/

namespace WireQuery

namespace TypeDescriptor

/-- Descriptors with the definition of a third have the same definition. -/
theorem sameDefinition_of_same {k d e : TypeDescriptor} (hd : k.sameDefinition d = true)
    (he : k.sameDefinition e = true) : d.sameDefinition e = true := by
  cases k with
  | message m =>
    cases d <;> cases e <;> simp_all [sameDefinition, MessageType.same]
  | enum m =>
    cases d <;> cases e <;> simp_all [sameDefinition, EnumType.same]

end TypeDescriptor

namespace Registry

/-- A load of a history was accepted, and its bundle holds the pool. -/
inductive Accepted : List Request → Pool → Prop
  | intro (hl : ((empty.run earlier).loadFrom gate source).result = .ok report) (hb : source.bytes = .ok b)
      (hp : Pool.decode? b = some p) : Accepted (earlier ++ .load gate source :: later) p

/-- A load gave a name its meaning: it was accepted while the name was free, and its bundle has the name. -/
structure Origin (history : List Request) (name : String) (gate : Gate) (source : BundleSource) : Prop where
  accepted : ∃ earlier later report, history = earlier ++ .load gate source :: later ∧
    (empty.run earlier).get? name = none ∧ ((empty.run earlier).loadFrom gate source).result = .ok report
  named : ((empty.loadFrom gate source).registry.get? name).isSome

theorem Accepted.sound (h : Accepted history p) : p.Sound := by
  cases h with
  | intro _ _ hp => exact Pool.sound_of_decode? hp

theorem run_load (earlier later : List Request) (gate : Gate) (source : BundleSource) :
    empty.run (earlier ++ .load gate source :: later) =
      ((empty.run earlier).loadFrom gate source).registry.run later := run_append empty earlier _

/-- What a load of the history lists is registered, with the same definition. -/
theorem Accepted.registered (h : Accepted history p) (hd : d ∈ p.descriptors) :
    ∃ known, (empty.run history).get? d.name = some known ∧ known.sameDefinition d = true := by
  cases h with
  | @intro earlier gate source _ b _ later hl hb hp =>
    obtain ⟨b', p', hb', hp', hr, hc⟩ := loadFrom_ok hl
    obtain rfl := Except.ok.inj (hb.symm.trans hb')
    obtain rfl := Option.some.inj (hp.symm.trans hp')
    obtain ⟨known, hk, hsame⟩ := get?_added (Pool.sound_of_decode? hp) hc hd
    rw [← hr] at hk
    rw [run_load]
    exact ⟨known, run_keeps hk later, hsame⟩

/-- Two accepted bundles list a name that both have the same way. -/
theorem Accepted.coherent (hp : Accepted history p) (hq : Accepted history q) (hd : d ∈ p.descriptors)
    (he : e ∈ q.descriptors) (hn : d.name = e.name) : d.sameDefinition e = true := by
  obtain ⟨k, hk, hkd⟩ := hp.registered hd
  obtain ⟨k', hk', hke⟩ := hq.registered he
  rw [hn, hk'] at hk
  obtain rfl := Option.some.inj hk
  exact TypeDescriptor.sameDefinition_of_same hkd hke

/-- A name that a run registers is registered by one accepted load of it, and means what that load alone says. -/
theorem run_first {r : Registry} (h : r.get? name = none) (hd : (r.run history).get? name = some d) :
    ∃ earlier gate source later report, history = earlier ++ .load gate source :: later ∧
      (r.run earlier).get? name = none ∧ ((r.run earlier).loadFrom gate source).result = .ok report ∧
      (empty.loadFrom gate source).registry.get? name = some d := by
  induction history generalizing r with
  | nil =>
    rw [show r.run [] = r from rfl, h] at hd
    contradiction
  | cons q history ih =>
    have hrest : (r.serve q).1.get? name = none → _ := fun hn => ih hn hd
    cases q with
    | load gate source =>
      cases hs : (r.loadFrom gate source).registry.get? name with
      | none =>
        obtain ⟨earlier, gate', source', later, report, rfl, hfree, hl⟩ := hrest hs
        exact ⟨.load gate source :: earlier, gate', source', later, report, rfl, hfree, hl⟩
      | some known =>
        obtain rfl : known = d := Option.some.inj ((run_keeps hs history).symm.trans hd)
        cases hl : (r.loadFrom gate source).result with
        | error e =>
          rw [(loadFrom_loads r gate source).registry_of_error hl, h] at hs
          contradiction
        | ok report =>
          rw [get?_loadFrom hl, h] at hs
          exact ⟨[], gate, source, history, report, rfl, h, hl, hs⟩
    | _ =>
      obtain ⟨earlier, gate', source', later, report, rfl, hfree, hl⟩ := hrest h
      exact ⟨_ :: earlier, gate', source', later, report, rfl, hfree, hl⟩

/-- The bundle of an origin is one of those that the history accepted. -/
theorem Origin.bundle (h : Origin history name gate source) : ∃ bundle p, source.bytes = .ok bundle ∧
    Pool.decode? bundle = some p ∧ Accepted history p ∧
    ∀ name, (empty.loadFrom gate source).registry.get? name = p.descriptors.find? (·.name = name) := by
  obtain ⟨earlier, later, report, rfl, -, hl⟩ := h.accepted
  obtain ⟨b, p, hb, hp, -, -⟩ := loadFrom_ok hl
  exact ⟨b, p, hb, hp, .intro hl hb hp, get?_alone hl hb hp⟩

theorem Origin.pool (h : Origin history name gate source) : ∃ p, Accepted history p ∧
    ∀ name, (empty.loadFrom gate source).registry.get? name = p.descriptors.find? (·.name = name) := by
  obtain ⟨_, p, -, -, hp, hget⟩ := h.bundle
  exact ⟨p, hp, hget⟩

/-- Every registered name has an origin, which alone gives it the same meaning. -/
theorem origin_of_get? (h : (empty.run history).get? name = some d) :
    ∃ gate source, Origin history name gate source ∧ (empty.loadFrom gate source).registry.get? name = some d := by
  obtain ⟨earlier, gate, source, later, report, rfl, hfree, hl, hd⟩ := run_first rfl h
  exact ⟨gate, source, ⟨⟨earlier, later, report, rfl, hfree, hl⟩, by simp [hd]⟩, hd⟩

end Registry

end WireQuery
