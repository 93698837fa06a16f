import WireQuery.Proofs.Extract.Redefinition

namespace WireQuery

/-- The enums of the fields of the messages that a message leads to. -/
def Pool.RefersEnum (p : Pool) (top target : String) : Prop :=
  ∃ name ty f, p.Refers top name ∧ p.message? name = some ty ∧ f ∈ ty.fields ++ ty.extensions ∧ f.kind = .enum target

namespace Registry

theorem Accepted.message? (hp : Accepted history p) (ht : ty ∈ p.messages) (hm : ty.mapEntry = false) :
    ∃ t, (empty.run history).message? ty.name = .ok t ∧ t.name = ty.name ∧
      t.fields = ty.fields.map (·.toFieldSpec) := by
  obtain ⟨known, hknown, hsame⟩ := hp.registered (Pool.mem_descriptors.mpr (.inl ⟨ty, ht, hm, rfl⟩))
  cases known with
  | enum e => contradiction
  | message t =>
    obtain ⟨hname, hfields⟩ := (Bool.and_eq_true _ _).mp hsame
    exact ⟨t, message?_ok.mpr hknown, of_decide_eq_true hname, of_decide_eq_true hfields⟩

theorem Accepted.enum? (hp : Accepted history p) (he : e ∈ p.enums) :
    ∃ t, (empty.run history).enum? e.name = .ok t ∧ t.name = e.name ∧ t.values = e.values := by
  obtain ⟨known, hknown, hsame⟩ := hp.registered (Pool.mem_descriptors.mpr (.inr ⟨e, he, rfl⟩))
  cases known with
  | message t => contradiction
  | enum t =>
    obtain ⟨hname, hvalues⟩ := (Bool.and_eq_true _ _).mp hsame
    exact ⟨t, enum?_ok.mpr hknown, of_decide_eq_true hname, of_decide_eq_true hvalues⟩

/-- A registered message refers into the pool of the bundle that registered it. -/
theorem origin_of_message? (h : (empty.run history).message? name = .ok t) :
    ∃ gate source bundle, Origin history name gate source ∧ source.bytes = .ok bundle ∧
      Pool.decode? bundle = some t.pool ∧ Accepted history t.pool ∧
      t.definition ∈ t.pool.messages ∧ t.definition.name = name := by
  obtain ⟨gate, source, horigin, halone⟩ := origin_of_get? (message?_ok.mp h)
  obtain ⟨bundle, p, hbytes, hdecode, hp, hget⟩ := horigin.bundle
  obtain ⟨rfl, hmem, hname⟩ := Pool.message_of_find? ((hget name).symm.trans halone)
  exact ⟨gate, source, bundle, horigin, hbytes, hdecode, hp, hmem, hname⟩

theorem ofValues_of_enum? (h : (empty.run history).enum? name = .ok e) : e = EnumType.ofValues e.name e.values := by
  obtain ⟨gate, source, horigin, halone⟩ := origin_of_get? (enum?_ok.mp h)
  obtain ⟨p, -, hget⟩ := horigin.pool
  rcases Pool.mem_descriptors.mp (List.mem_of_find?_eq_some ((hget name).symm.trans halone)) with
    ⟨ty, -, -, hd⟩ | ⟨d, -, hd⟩
  · contradiction
  · rw [TypeDescriptor.enum.inj hd]
    rfl

/-- A bundle that was loaded alone registers its messages as they are in its pool. -/
theorem message?_first (hp : Pool.decode? b = some p) (ht : p.message? name = some ty) (hm : ty.mapEntry = false) :
    (empty.run [.load .allow (.memory b)]).message? name = .ok ⟨ty, p⟩ := by
  obtain ⟨hmem, rfl⟩ := Pool.message?_mem ht
  have hlisted : .message ⟨ty, p⟩ ∈ p.descriptors := Pool.mem_descriptors.mpr (.inl ⟨ty, hmem, hm, rfl⟩)
  exact message?_ok.mpr ((get?_first rfl rfl hp _).trans ((Pool.sound_of_decode? hp).find?_descriptor hlisted))

/-- A registered message, all messages that it leads to and all enums of their fields are registered under their own
names, and each is listed there as the bundle of the message lists it. Only the entry types of maps are not registered. -/
theorem registry_closed (h : (empty.run history).message? name = .ok t) :
    let r := empty.run history
    (∃ gate source bundle, Origin history name gate source ∧ source.bytes = .ok bundle ∧
      Pool.decode? bundle = some t.pool) ∧
    (∀ target, t.pool.Refers name target → ∃ ty, t.pool.message? target = some ty ∧
      (ty.mapEntry = false → ∃ u, r.message? target = .ok u ∧ u.name = target ∧
        u.fields = ty.fields.map (·.toFieldSpec))) ∧
    (∀ target, t.pool.RefersEnum name target → ∃ e u, t.pool.enum? target = some e ∧ r.enum? target = .ok u ∧
      u.name = target ∧ u.values = e.values) ∧
    ∀ f ∈ t.fields, ∀ target,
      (f.kind = .message target → (t.pool.message? target).all (·.mapEntry = false) →
        ∃ u, r.message? target = .ok u) ∧
      (f.kind = .enum target → ∃ u, r.enum? target = .ok u) := by
  intro r
  obtain ⟨gate, source, bundle, horigin, hbytes, hdecode, hp, hmem, rfl⟩ := origin_of_message? h
  have htop : t.pool.message? t.definition.name = some t.definition := hp.sound.message?_of_mem hmem
  have hmessages (target : String) (hr : t.pool.Refers t.definition.name target) :
      ∃ ty, t.pool.message? target = some ty ∧ (ty.mapEntry = false → ∃ u, r.message? target = .ok u ∧
        u.name = target ∧ u.fields = ty.fields.map (·.toFieldSpec)) := by
    obtain ⟨ty, hty⟩ := Option.isSome_iff_exists.mp (hr.isSome hp.sound (by simp [htop]))
    obtain ⟨hm, rfl⟩ := Pool.message?_mem hty
    exact ⟨ty, hty, hp.message? hm⟩
  have henums (target : String) (hr : t.pool.RefersEnum t.definition.name target) :
      ∃ e u, t.pool.enum? target = some e ∧ r.enum? target = .ok u ∧ u.name = target ∧ u.values = e.values := by
    obtain ⟨name, ty, f, -, hty, hf, hk⟩ := hr
    have hknown := ((hp.sound.messages ty (Pool.message?_mem hty).1).mem hf).known
    rw [hk] at hknown
    obtain ⟨e, he⟩ := Option.isSome_iff_exists.mp hknown
    obtain ⟨hm, rfl⟩ := Pool.enum?_mem he
    obtain ⟨u, hu⟩ := hp.enum? hm
    exact ⟨e, u, he, hu⟩
  refine ⟨⟨gate, source, bundle, horigin, hbytes, hdecode⟩, hmessages, henums, ?_⟩
  intro spec hspec target
  obtain ⟨f, hf, rfl⟩ := List.mem_map.mp hspec
  have hf : f ∈ t.definition.fields ++ t.definition.extensions := List.mem_append_left _ hf
  constructor
  · intro hk hm
    obtain ⟨ty, hty, hu⟩ := hmessages target (.field .self htop hf (.inl hk))
    obtain ⟨u, hu, -⟩ := hu (by simpa [hty] using hm)
    exact ⟨u, hu⟩
  · intro hk
    obtain ⟨-, u, -, hu, -⟩ := henums target ⟨_, _, f, .self, htop, hf, hk⟩
    exact ⟨u, hu⟩

def chainLoad : Request := .load .allow (.memory (FileDecl.writeBundle [Samples.chain]))

def chainsLoad : Request := .load .allow (.memory (FileDecl.writeBundle [Samples.chains]))

theorem chains_listed : ((empty.run [chainLoad, chainsLoad]).message? "Chains").toOption.any (fun t =>
    (t.pool.message? "Chains").any (fun ty => ty.fields.any (fun f => f.kind = .message "N")) &&
      (t.pool.message? "N").any (fun ty => !ty.mapEntry)) = true := by cbv

theorem nodes_of_chains_registered : ((empty.run [chainLoad]).get? "N").isSome ∧
    ∃ t, (empty.run [chainLoad, chainsLoad]).message? "Chains" = .ok t ∧ t.pool.Refers "Chains" "N" ∧
      ∃ ty u, t.pool.message? "N" = some ty ∧ (empty.run [chainLoad, chainsLoad]).message? "N" = .ok u ∧
        u.name = "N" ∧ u.fields = ty.fields.map (·.toFieldSpec) := by
  have hbefore : ((empty.run [chainLoad]).get? "N").isSome := by decide +kernel
  obtain ⟨t, ht, hlisted⟩ := (Option.any_eq_true _ _).mp chains_listed
  obtain ⟨hfields, hentry⟩ := (Bool.and_eq_true _ _).mp hlisted
  obtain ⟨ty, hty, hfields⟩ := (Option.any_eq_true _ _).mp hfields
  obtain ⟨f, hf, hk⟩ := List.any_eq_true.mp hfields
  have hmessage := ok_of_toOption ht
  have hrefers : t.pool.Refers "Chains" "N" :=
    .field .self hty (List.mem_append_left _ hf) (.inl (of_decide_eq_true hk))
  obtain ⟨node, hnode, hu⟩ := (registry_closed hmessage).2.1 "N" hrefers
  obtain ⟨u, hu⟩ := hu (by simpa [hnode] using hentry)
  exact ⟨hbefore, t, hmessage, hrefers, node, u, hnode, hu⟩

end Registry

end WireQuery
