import WireQuery.Proofs.Extract.Settled
import WireQuery.Proofs.Registry.Run

namespace WireQuery

namespace Node

/-- The node that one step leads to, if it can be taken. -/
def next? (p : Pool) : Node → Step → Option Node
  | .message type m, .field name => (Node.field p type m name).toOption
  | .repeated f items, .index i => (Node.index p f items i).toOption
  | _, _ => none

/-- The node at the end of some steps, if each of them can be taken. -/
def follow? (p : Pool) (node : Node) (steps : List Step) : Option Node := steps.foldlM (next? p) node

end Node

/-- The message that a path reaches in some bytes, with its type. -/
def Registry.reach? (r : Registry) (b : Bytes) (type : String) (path : Path) : Option (MessageDef × Message) :=
  match r.message? type with
  | .error _ => none
  | .ok t =>
    match (t.pool.read? t.definition b).bind (fun m => Node.follow? t.pool (.message t.definition m) path.steps) with
    | some (.message ty m) => some (ty, m)
    | _ => none

namespace Walk

theorem go_next {w : Walk} (h : Node.next? w.pool node step = some next) (rest : List Step) :
    w.go node (step :: rest) = w.go next rest := by
  unfold Node.next? at h
  split at h
  · rw [go, ok_of_toOption h]
    rfl
  · rw [go, ok_of_toOption h]
    rfl
  · contradiction

theorem go_follow {w : Walk} (h : Node.follow? w.pool node steps = some last) (rest : List Step) :
    w.go node (steps ++ rest) = w.go last rest := by
  induction steps generalizing node with
  | nil =>
    cases h
    rfl
  | cons step steps ih =>
    obtain ⟨next, hn, h⟩ := Option.bind_eq_some_iff.mp h
    rw [List.cons_append, go_next hn]
    exact ih h

end Walk

namespace Node

theorem next_settles (hp : p.Sound) (h : Settles p a b) (hn : next? p a step = some next) :
    ∃ next', Settles p next next' := by
  unfold next? at hn
  split at hn
  · cases h with
    | message ht hm =>
      obtain ⟨next', -, hs⟩ := (ok_of_toOption hn ▸ field_settles hp ht hm _).of_ok
      exact ⟨next', hs⟩
  · cases h with
    | repeated hv =>
      obtain ⟨next', -, hs⟩ := (ok_of_toOption hn ▸ index_settles hv _).of_ok
      exact ⟨next', hs⟩
  · contradiction

/-- Every node on the way fits what is known of its type. -/
theorem follow_settles (hp : p.Sound) (h : Settles p a b) (hf : follow? p a steps = some last) :
    ∃ last', Settles p last last' := by
  induction steps generalizing a b with
  | nil =>
    cases hf
    exact ⟨b, h⟩
  | cons step steps ih =>
    obtain ⟨next, hn, hf⟩ := Option.bind_eq_some_iff.mp hf
    obtain ⟨next', hs⟩ := next_settles hp h hn
    exact ih hs hf

end Node

namespace Registry

theorem reach?_inv {r : Registry} (h : r.reach? b type path = some (ty, m)) :
    ∃ t m₀, r.message? type = .ok t ∧ t.pool.read? t.definition b = some m₀ ∧
      Node.follow? t.pool (.message t.definition m₀) path.steps = some (.message ty m) := by
  unfold reach? at h
  split at h
  · contradiction
  · next t ht =>
    split at h
    · next hb =>
      cases h
      obtain ⟨m₀, hread, hfollow⟩ := Option.bind_eq_some_iff.mp hb
      exact ⟨t, m₀, ht, hread, hfollow⟩
    · contradiction

/-- The bytes of a message that a path reaches are its value, and they can be extracted from in its place: what the
rest of a path gives from them is what the whole path gives, an error as well as a value. A registered type is the one
that was reached, since its bundle was loaded alone. The message may nest as deep as is read, with one entry in a map,
and be as long as its length can be written. -/
theorem extraction_composes (hload : (empty.loadFrom gate source).result = .ok report) :
    let r := (empty.loadFrom gate source).registry
    ∀ {b type path ty m}, r.reach? b type path = some (ty, m) → (r.get? ty.name).isSome →
      m.within Pool.maxLevels = true → m.encode.length < 2 ^ 64 → ∀ warn,
        r.extract warn b type path = .ok ⟨.blob m.encode, []⟩ ∧
          ∀ rest warn', Agree Walk.SameValue (r.extract warn b type ⟨path.steps ++ rest.steps⟩)
            (r.extract warn' m.encode ty.name rest) := by
  intro r b type path ty m hreach hreg hw hl warn
  obtain ⟨_, p, hb, hp, -, -⟩ := loadFrom_ok hload
  have hsound := Pool.sound_of_decode? hp
  have hget (name : String) : r.get? name = p.descriptors.find? (·.name = name) := get?_alone hload hb hp name
  obtain ⟨t, m₀, ht, hread, hfollow⟩ := reach?_inv hreach
  obtain ⟨rfl, hmem, -⟩ := Pool.message_of_find? (hget type ▸ message?_ok.mp ht)
  have hroot : Node.Settles t.pool (.message t.definition m₀) (.message t.definition m₀.settle) :=
    .message hmem (Pool.read?_fits hsound (hsound.messages _ hmem) hread)
  obtain ⟨_, hlast⟩ := Node.follow_settles hsound hroot hfollow
  cases hlast with
  | message hty hm =>
    have hwhole (steps : List Step) : r.extract warn b type ⟨path.steps ++ steps⟩ =
        (Walk.mk t.pool type ⟨path.steps ++ steps⟩ warn).go (.message ty m) steps := by
      unfold extract
      rw [ht]
      simp only [Except.bind, bind, hread]
      exact Walk.go_follow (w := ⟨t.pool, type, _, warn⟩) hfollow steps
    refine ⟨?_, ?_⟩
    · have hb := hwhole []
      rwa [List.append_nil, Walk.go_nil] at hb
    · intro rest warn'
      have hreg' : r.get? ty.name = some (.message ⟨ty, t.pool⟩) := by
        obtain ⟨d, hd⟩ := Option.isSome_iff_exists.mp hreg
        have hfind := (hget ty.name).symm.trans hd
        rw [hd, hsound.descriptor hty (List.mem_of_find?_eq_some hfind) (by simpa using List.find?_some hfind)]
      have hreread := Pool.read?_encode hsound (hsound.messages ty hty) hm hw hl
      have hpart : r.extract warn' m.encode ty.name rest =
          (Walk.mk t.pool ty.name rest warn').go (.message ty m.settle) rest.steps := by
        unfold extract
        rw [message?_ok.mpr hreg']
        simp only [Except.bind, bind, hreread]
      rw [hwhole, hpart]
      refine Walk.go_settles (w := ⟨t.pool, type, _, warn⟩) hsound ?_ (.message hty hm) rest.steps
      rfl

set_option maxRecDepth 20000 in
theorem next_node_composes :
    let r := (empty.loadFrom .allow (.memory (FileDecl.writeBundle [Samples.chain]))).registry
    ∃ ty m, r.reach? [10, 2, 16, 7] "N" ⟨[.field "next"]⟩ = some (ty, m) ∧ m.encode = [16, 7] ∧
      Agree Walk.SameValue (r.extract false [10, 2, 16, 7] "N" ⟨[.field "next", .field "x"]⟩)
        (r.extract false m.encode ty.name ⟨[.field "x"]⟩) := by
  have hload : (empty.loadFrom .allow (.memory (FileDecl.writeBundle [Samples.chain]))).result.isOk = true := by cbv
  obtain ⟨report, hreport⟩ := exists_of_isOk hload
  have hreach : ((empty.loadFrom .allow (.memory (FileDecl.writeBundle [Samples.chain]))).registry.reach?
      [10, 2, 16, 7] "N" ⟨[.field "next"]⟩).any (fun x =>
        ((empty.loadFrom .allow (.memory (FileDecl.writeBundle [Samples.chain]))).registry.get? x.1.name).isSome &&
          x.2.within Pool.maxLevels && x.2.encode = [16, 7]) = true := by cbv
  obtain ⟨⟨ty, m⟩, hm, hc⟩ := (Option.any_eq_true _ _).mp hreach
  simp only [Bool.and_eq_true, decide_eq_true_eq] at hc
  obtain ⟨⟨hreg, hw⟩, he⟩ := hc
  have hcomposes := extraction_composes hreport hm hreg hw (by simp [he]) false
  exact ⟨ty, m, hm, he, hcomposes.2 ⟨[.field "x"]⟩ false⟩

end Registry

end WireQuery
