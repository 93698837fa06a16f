import WireQuery.Proofs.Extract.Shared
import WireQuery.Proofs.Registry.Origin

/-!
A type that several accepted bundles list is extracted from as the first of them defines it. Its listing is the same in
all of them; what a listing leaves out need not be.
-/

namespace WireQuery

/-- What a field has beside its listing. -/
def FieldDef.codec (f : FieldDef) : Bool × Bool × Bool × Option Nat × Bool × Option Scalar :=
  (f.group, f.presence, f.packed, f.oneof, f.extension, f.default)

/-- Two definitions agree in what a listing leaves out. The entry types of maps are not listed at all. -/
structure MessageDef.SameCodec (a b : MessageDef) : Prop where
  mapEntry : a.mapEntry = b.mapEntry
  fields : a.fields.map (·.codec) = b.fields.map (·.codec)
  extensions : a.extensions = b.extensions
  entry : a.mapEntry = true → a.fields.map (·.toFieldSpec) = b.fields.map (·.toFieldSpec)

/-- The messages that the fields of a message lead to, itself among them. -/
inductive Pool.Refers (p : Pool) (top : String) : String → Prop
  | self : p.Refers top top
  | field (h : p.Refers top name) (ht : p.message? name = some ty) (hf : f ∈ ty.fields ++ ty.extensions)
    (hk : f.kind = .message target ∨ f.kind = .map target) : p.Refers top target

/-- Two message types agree in what is not listed, and so do the types that they lead to. -/
def MessageType.SameCodec (a b : MessageType) : Prop :=
  ∀ name ty, a.pool.Refers a.name name → a.pool.message? name = some ty →
    ∃ ty', b.pool.message? name = some ty' ∧ ty.SameCodec ty'

theorem FieldDef.eq_of_codec {f g : FieldDef} (hs : f.toFieldSpec = g.toFieldSpec) (hc : f.codec = g.codec) :
    f = g := by
  cases f
  cases g
  simp_all [FieldDef.codec]

theorem FieldDef.map_eq_of_codec {fs gs : List FieldDef} (hs : fs.map (·.toFieldSpec) = gs.map (·.toFieldSpec))
    (hc : fs.map (·.codec) = gs.map (·.codec)) : fs = gs := by
  induction fs generalizing gs with
  | nil => simpa using hs
  | cons f fs ih =>
    cases gs with
    | nil => simp at hs
    | cons g gs =>
      simp only [List.map_cons, List.cons.injEq] at hs hc
      rw [FieldDef.eq_of_codec hs.1 hc.1, ih hs.2 hc.2]

theorem MessageDef.SameCodec.eq {a b : MessageDef} (h : a.SameCodec b) (hn : a.name = b.name)
    (hf : a.fields.map (·.toFieldSpec) = b.fields.map (·.toFieldSpec)) : a = b := by
  have hfields := FieldDef.map_eq_of_codec hf h.fields
  have hm := h.mapEntry
  have hx := h.extensions
  cases a
  cases b
  simp_all

namespace Pool

variable {p : Pool}

theorem message?_mem (h : p.message? name = some ty) : ty ∈ p.messages ∧ ty.name = name :=
  ⟨List.mem_of_find?_eq_some h, by simpa using List.find?_some h⟩

theorem enum?_mem {e : EnumDef} (h : p.enum? name = some e) : e ∈ p.enums ∧ e.name = name :=
  ⟨List.mem_of_find?_eq_some h, by simpa using List.find?_some h⟩

/-- Whatever a message leads to is in its pool. -/
theorem Refers.isSome (hp : p.Sound) (ht : (p.message? top).isSome) (h : p.Refers top name) :
    (p.message? name).isSome := by
  induction h with
  | self => exact ht
  | field _ ht hf hk _ =>
    have hknown := ((hp.messages _ (message?_mem ht).1).mem hf).known
    rcases hk with hk | hk
    · rwa [hk] at hknown
    · rwa [hk] at hknown

end Pool

namespace Registry

section Shares

variable {p q : Pool} (hp : Accepted history p) (hq : Accepted history q)
include hp hq

/-- Accepted bundles say the same of an enum that both have. -/
theorem enum?_coherent (hd : (p.enum? name).isSome) (he : (q.enum? name).isSome) : p.enum? name = q.enum? name := by
  obtain ⟨d, hd⟩ := Option.isSome_iff_exists.mp hd
  obtain ⟨e, he⟩ := Option.isSome_iff_exists.mp he
  obtain ⟨hdm, rfl⟩ := Pool.enum?_mem hd
  obtain ⟨hem, hn⟩ := Pool.enum?_mem he
  have hsame := hp.coherent hq (Pool.mem_descriptors.mpr (.inr ⟨d, hdm, rfl⟩))
    (Pool.mem_descriptors.mpr (.inr ⟨e, hem, rfl⟩)) hn.symm
  have hv : d.values = e.values := of_decide_eq_true ((Bool.and_eq_true _ _).mp hsame).2
  rw [hd, he]
  cases d
  cases e
  simp_all only

/-- Accepted bundles list a message that both have the same way, so what is not listed makes the difference. -/
theorem message?_coherent {d e : MessageDef} (hd : p.message? name = some d) (he : q.message? name = some e)
    (hc : d.SameCodec e) : d = e := by
  obtain ⟨hdm, rfl⟩ := Pool.message?_mem hd
  obtain ⟨hem, hn⟩ := Pool.message?_mem he
  apply hc.eq hn.symm
  cases hme : d.mapEntry with
  | true => exact hc.entry hme
  | false =>
    have hsame := hp.coherent hq (Pool.mem_descriptors.mpr (.inl ⟨d, hdm, hme, rfl⟩))
      (Pool.mem_descriptors.mpr (.inl ⟨e, hem, hc.mapEntry ▸ hme, rfl⟩)) hn.symm
    exact of_decide_eq_true ((Bool.and_eq_true _ _).mp hsame).2

end Shares

/-- Accepted bundles share what a type of both leads to, if they agree there in what is not listed. -/
theorem shares_of_sameCodec {a b : MessageType} (ha : Accepted history a.pool) (hb : Accepted history b.pool)
    (ht : (a.pool.message? a.name).isSome) (hc : a.SameCodec b) : a.pool.Shares b.pool (a.pool.Refers a.name) := by
  have hsame (name) (hr : a.pool.Refers a.name name) : a.pool.message? name = b.pool.message? name := by
    obtain ⟨d, hd⟩ := Option.isSome_iff_exists.mp (hr.isSome ha.sound ht)
    obtain ⟨e, he, hcodec⟩ := hc name d hr hd
    rw [hd, he, message?_coherent ha hb hd he hcodec]
  refine ⟨hsame, fun name ty hr hty f hf => ?_⟩
  have hknown := ((Pool.sound_of_message? ha.sound hty).mem hf).known
  have hknown' := ((Pool.sound_of_message? hb.sound (hsame name hr ▸ hty)).mem hf).known
  cases hk : f.kind with
  | scalar k => trivial
  | enum target =>
    rw [hk] at hknown hknown'
    exact enum?_coherent ha hb hknown hknown'
  | message target => exact .field hr hty hf (.inl hk)
  | map target => exact .field hr hty hf (.inr hk)

/-- A registered type is extracted from the same in two registries that share all it leads to. -/
theorem extract_shared {r s : Registry} (hr : r.message? name = .ok t) (hs : s.message? name = .ok u)
    (hd : t.definition = u.definition) (hp : t.pool.Shares u.pool known) (ht : t.definition.Shared t.pool u.pool known)
    (warn : Bool) (b : Bytes) (path : Path) : r.extract warn b name path = s.extract warn b name path := by
  unfold extract
  rw [hr, hs]
  simp only [Except.bind, bind, ← hd, ← read?_shared hp ht]
  cases t.pool.read? t.definition b with
  | none => rfl
  | some m =>
    have hn : (Node.message t.definition m).Shared t.pool u.pool known := ht
    exact Walk.go_shared hp hn name path warn path.steps

/-- Two accepted bundles that agree in what is not listed of a type mean the same by it. -/
theorem extract_of_sameCodec {p q : Pool} {r s : Registry} (hp : Accepted history p) (hq : Accepted history q)
    (ht : p.descriptors.find? (·.name = name) = some (.message t))
    (hu : q.descriptors.find? (·.name = name) = some (.message u)) (hc : t.SameCodec u)
    (hr : r.message? name = .ok t) (hs : s.message? name = .ok u) (warn : Bool) (b : Bytes) (path : Path) :
    r.extract warn b name path = s.extract warn b name path := by
  obtain ⟨rfl, hmem, hname⟩ := Pool.message_of_find? ht
  obtain ⟨rfl, hmem', hname'⟩ := Pool.message_of_find? hu
  have htop : t.pool.message? t.name = some t.definition := hp.sound.message?_of_mem hmem
  have htop' : u.pool.message? t.name = some u.definition := by
    rw [MessageType.name, hname, ← hname']
    exact hq.sound.message?_of_mem hmem'
  have hshares := shares_of_sameCodec hp hq (by simp [htop]) hc
  have hd : t.definition = u.definition :=
    Option.some.inj (htop.symm.trans ((hshares.same _ .self).trans htop'))
  exact extract_shared hr hs hd hshares (hshares.shared _ _ .self htop) warn b path

/-- A message that an accepted bundle lists is extracted from, after the load, as in a registry that loaded only the
bundle which gave its name a meaning; that bundle lists it the same way, and a name that had a meaning keeps it. The new
bundle alone would give the same, if the name was free, or if the two bundles agree in what is not listed of the message
and of what it leads to. -/
theorem first_definition_decides (history : List Request)
    (hload : ((empty.run history).loadFrom gate source).result = .ok report) (hbytes : source.bytes = .ok bundle)
    (hlist : TypeDescriptor.ofBundle bundle = .ok ds) (ht : .message t ∈ ds) :
    let before := empty.run history
    let after := (before.loadFrom gate source).registry
    let alone := (empty.loadFrom gate source).registry
    alone.message? t.name = .ok t ∧
    ∃ gate₀ source₀ t₀, Origin (history ++ [.load gate source]) t.name gate₀ source₀ ∧
      let first := (empty.loadFrom gate₀ source₀).registry
      first.message? t.name = .ok t₀ ∧ t₀.same t ∧
      (∀ warn b path, after.extract warn b t.name path = first.extract warn b t.name path) ∧
      ((before.get? t.name).isSome →
        ∀ warn b path, after.extract warn b t.name path = before.extract warn b t.name path) ∧
      (before.get? t.name = none ∨ t.SameCodec t₀ →
        ∀ warn b path, after.extract warn b t.name path = alone.extract warn b t.name path) := by
  intro before after alone
  obtain ⟨p, hp, rfl⟩ := ofBundle_ok hlist
  have hnew : Accepted (history ++ [.load gate source]) p := .intro hload hbytes hp
  have halone : alone.get? t.name = some (.message t) :=
    (get?_alone hload hbytes hp t.name).trans (hnew.sound.find?_descriptor ht)
  obtain ⟨known, hknown, hsame⟩ := hnew.registered ht
  have hafter : after.get? t.name = some known := by
    rw [← hknown, run_load]
    rfl
  obtain ⟨gate₀, source₀, horigin, hfirst⟩ := origin_of_get? hknown
  cases known with
  | enum e => contradiction
  | message t₀ =>
    refine ⟨message?_ok.mpr halone, gate₀, source₀, t₀, horigin, message?_ok.mpr hfirst, hsame,
      extract_congr (hafter.trans hfirst.symm), ?_, ?_⟩
    · intro hset
      obtain ⟨d, hd⟩ := Option.isSome_iff_exists.mp hset
      exact extract_congr ((loadFrom_keeps hd gate source).trans hd.symm)
    · rintro (hfree | hcodec)
      · have hget := get?_loadFrom hload t.name
        rw [hfree, Option.none_or] at hget
        exact extract_congr hget
      · intro warn b path
        obtain ⟨p₀, hold, hget⟩ := horigin.pool
        exact (extract_of_sameCodec hnew hold (hnew.sound.find?_descriptor ht) ((hget t.name).symm.trans hfirst) hcodec
          (message?_ok.mpr halone) (message?_ok.mpr hafter) warn b path).symm

def defaulted (initial : String) : BundleSource := .memory (FileDecl.writeBundle [Samples.defaulted initial])

theorem defaulted_listed : ∃ ds t, TypeDescriptor.ofBundle (FileDecl.writeBundle [Samples.defaulted "2"]) = .ok ds ∧
    .message t ∈ ds ∧ t.name = "T" := by
  have h : (TypeDescriptor.ofBundle (FileDecl.writeBundle [Samples.defaulted "2"])).toOption.any
      (fun ds => ds.any (fun d => d.kind = .message && d.name = "T")) = true := by cbv
  obtain ⟨ds, hds, hany⟩ := (Option.any_eq_true _ _).mp h
  obtain ⟨d, hd, hnamed⟩ := List.any_eq_true.mp hany
  simp only [Bool.and_eq_true, decide_eq_true_eq] at hnamed
  cases d with
  | enum e => simp [TypeDescriptor.kind] at hnamed
  | message t => exact ⟨ds, t, ok_of_toOption hds, hd, hnamed.2⟩

theorem defaulted_twice : ∃ report,
    ((empty.run [.load .allow (defaulted "1")]).loadFrom .allow (defaulted "2")).result = .ok report := by
  have h : ((empty.run [.load .allow (defaulted "1")]).loadFrom .allow (defaulted "2")).result.isOk = true := by cbv
  exact exists_of_isOk h

theorem first_default_decides :
    ∃ gate₀ source₀, Origin [.load .allow (defaulted "1"), .load .allow (defaulted "2")] "T" gate₀ source₀ ∧
      ∀ warn b path,
        ((empty.run [.load .allow (defaulted "1")]).loadFrom .allow (defaulted "2")).registry.extract warn b "T" path =
          (empty.loadFrom gate₀ source₀).registry.extract warn b "T" path := by
  obtain ⟨report, hload⟩ := defaulted_twice
  obtain ⟨ds, t, hlist, ht, hname⟩ := defaulted_listed
  obtain ⟨-, gate₀, source₀, t₀, horigin, -, -, hfirst, -⟩ := first_definition_decides _ hload rfl hlist ht
  exact ⟨gate₀, source₀, hname ▸ horigin, hname ▸ hfirst⟩

set_option maxRecDepth 20000 in
/-- An accepted bundle alone may say something else: a default is not listed, and the first one stays. -/
theorem redefinition_can_differ : ¬ ∀ (history : List Request) gate source report bundle ds t,
    ((empty.run history).loadFrom gate source).result = .ok report → source.bytes = .ok bundle →
    TypeDescriptor.ofBundle bundle = .ok ds → .message t ∈ ds →
      ∀ warn b path, ((empty.run history).loadFrom gate source).registry.extract warn b t.name path =
        (empty.loadFrom gate source).registry.extract warn b t.name path := by
  intro h
  obtain ⟨report, hload⟩ := defaulted_twice
  obtain ⟨ds, t, hlist, ht, hname⟩ := defaulted_listed
  have heq := h _ _ _ report _ ds t hload rfl hlist ht false [] ⟨[.field "x"]⟩
  have hone : ((empty.run [.load .allow (defaulted "1")]).loadFrom .allow (defaulted "2")).registry.extract
      false [] "T" ⟨[.field "x"]⟩ = .ok ⟨.integer 1, []⟩ := by cbv
  have htwo : (empty.loadFrom .allow (defaulted "2")).registry.extract false [] "T" ⟨[.field "x"]⟩ =
      .ok ⟨.integer 2, []⟩ := by cbv
  rw [hname, hone, htwo] at heq
  exact absurd (Except.ok.inj heq) (by decide)

end Registry

end WireQuery
