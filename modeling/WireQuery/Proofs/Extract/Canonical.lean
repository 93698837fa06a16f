import WireQuery.Proofs.Extract.Composition

namespace WireQuery

/-- What is dropped when a message settles was not written. -/
theorem Message.encode_settle (m : Message) : m.settle.encode = m.encode := by
  rw [encode, encode, m.toFields_settle]

namespace Registry

variable {r : Registry}

/-- Bytes that the root path of a type gives back as they are. -/
def Canonical (r : Registry) (type : String) (c : Bytes) : Prop :=
  ∀ warn, r.extract warn c type .root = .ok ⟨.blob c, []⟩

/-- A path that reaches a message gives its bytes. -/
theorem extract_of_reach? (h : r.reach? b type path = some (ty, m)) (warn : Bool) :
    r.extract warn b type path = .ok ⟨.blob m.encode, []⟩ := by
  obtain ⟨t, m₀, ht, hread, hfollow⟩ := reach?_inv h
  have hgo := Walk.go_follow (w := ⟨t.pool, type, path, warn⟩) hfollow []
  rw [List.append_nil, Walk.go_nil] at hgo
  exact (extract_of_read ht hread warn path).trans hgo

/-- The root path reaches the message that is read. -/
theorem reach?_root (ht : r.message? type = .ok t) (hread : t.pool.read? t.definition b = some m) :
    r.reach? b type .root = some (t.definition, m) := by
  rw [reach?, ht]
  simp only [hread, Option.bind_some]
  rfl

/-- A message of a registered type is read back from its bytes, settled, and so written as before. -/
theorem canonical_encode (ht : r.message? type = .ok t) (hp : t.pool.Sound) (hmem : t.definition ∈ t.pool.messages)
    (hfits : t.pool.Fits Pool.maxLevels t.definition m) (hw : m.within Pool.maxLevels = true)
    (hl : m.encode.length < 2 ^ 64) : r.Canonical type m.encode := by
  intro warn
  have hread := Pool.read?_encode hp (hp.messages _ hmem) hfits hw hl
  rw [extract_of_reach? (reach?_root ht hread), m.encode_settle]

/-- A message on the way of a path fits its type, which is one of the pool of the first. -/
theorem fits_of_reach? (ht : r.message? type = .ok t) (hp : t.pool.Sound) (hmem : t.definition ∈ t.pool.messages)
    (h : r.reach? b type path = some (ty, m)) : ty ∈ t.pool.messages ∧ t.pool.Fits Pool.maxLevels ty m := by
  obtain ⟨t', m₀, ht', hread, hfollow⟩ := reach?_inv h
  obtain rfl : t = t' := Except.ok.inj (ht.symm.trans ht')
  have hroot : Node.Settles t.pool (.message t.definition m₀) (.message t.definition m₀.settle) :=
    .message hmem (Pool.read?_fits hp (hp.messages _ hmem) hread)
  obtain ⟨_, hlast⟩ := Node.follow_settles hp hroot hfollow
  cases hlast with
  | message hty hm => exact ⟨hty, hm⟩

/-- The registered message types of a bundle loaded alone are those of its pool. -/
theorem message?_alone (hload : (empty.loadFrom gate source).result = .ok report) :
    ∃ p : Pool, p.Sound ∧
      (∀ {name t}, (empty.loadFrom gate source).registry.message? name = .ok t →
        t.pool = p ∧ t.definition ∈ p.messages) ∧
      ∀ {ty}, ty ∈ p.messages → ((empty.loadFrom gate source).registry.get? ty.name).isSome →
        (empty.loadFrom gate source).registry.message? ty.name = .ok ⟨ty, p⟩ := by
  obtain ⟨_, p, hb, hp, -, -⟩ := loadFrom_ok hload
  have hsound := Pool.sound_of_decode? hp
  have hget := get?_alone hload hb hp
  refine ⟨p, hsound, ?_, ?_⟩
  · intro name t ht
    obtain ⟨hpool, hmem, -⟩ := Pool.message_of_find? (hget name ▸ message?_ok.mp ht)
    exact ⟨hpool, hpool ▸ hmem⟩
  · intro ty hty hreg
    obtain ⟨d, hd⟩ := Option.isSome_iff_exists.mp hreg
    have hfind := (hget ty.name).symm.trans hd
    rw [message?_ok, hd, hsound.descriptor hty (List.mem_of_find?_eq_some hfind) (by simpa using List.find?_some hfind)]

/-- What a path gives for a message of a registered type is given back as it is, byte for byte, by the root path of that
type; so are the bytes of every message that fits a registered type, however it came about. The bundle was loaded alone.
The message may nest as deep as is read, with one entry in a map, and be as long as its length can be written. -/
theorem message_results_canonical (hload : (empty.loadFrom gate source).result = .ok report) :
    let r := (empty.loadFrom gate source).registry
    (∀ {b type path ty m}, r.reach? b type path = some (ty, m) → (r.get? ty.name).isSome →
        m.within Pool.maxLevels = true →
          ∃ c, (∀ warn, r.extract warn b type path = .ok ⟨.blob c, []⟩) ∧
            (c.length < 2 ^ 64 → r.Canonical ty.name c)) ∧
      ∀ {type t m}, r.message? type = .ok t → t.pool.Fits Pool.maxLevels t.definition m →
        m.within Pool.maxLevels = true → m.encode.length < 2 ^ 64 → r.Canonical type m.encode := by
  intro r
  obtain ⟨p, hp, hof, hto⟩ := message?_alone hload
  constructor
  · intro b type path ty m hreach hreg hw
    refine ⟨m.encode, extract_of_reach? hreach, fun hl => ?_⟩
    obtain ⟨t, -, ht, -, -⟩ := reach?_inv hreach
    obtain ⟨rfl, hmem⟩ := hof ht
    obtain ⟨hty, hfits⟩ := fits_of_reach? ht hp hmem hreach
    exact canonical_encode (hto hty hreg) hp hty hfits hw hl
  · intro type t m ht hfits hw hl
    obtain ⟨rfl, hmem⟩ := hof ht
    exact canonical_encode ht hp hmem hfits hw hl

set_option maxRecDepth 20000 in
/-- The number of the next node takes two bytes too many, and stands before its own empty next node. -/
theorem overlong_node_canonical :
    let r := (empty.loadFrom .allow (.memory (FileDecl.writeBundle [Samples.chain]))).registry
    r.extract false [10, 6, 16, 135, 128, 0, 10, 0] "N" ⟨[.field "next"]⟩ = .ok ⟨.blob [10, 0, 16, 7], []⟩ ∧
      r.Canonical "N" [10, 0, 16, 7] ∧ r.Canonical "N" [] := by
  have hload : (empty.loadFrom .allow (.memory (FileDecl.writeBundle [Samples.chain]))).result.isOk = true := by cbv
  obtain ⟨report, hreport⟩ := exists_of_isOk hload
  have hreach : ((empty.loadFrom .allow (.memory (FileDecl.writeBundle [Samples.chain]))).registry.reach?
      [10, 6, 16, 135, 128, 0, 10, 0] "N" ⟨[.field "next"]⟩).any (fun x => x.1.name = "N" &&
        ((empty.loadFrom .allow (.memory (FileDecl.writeBundle [Samples.chain]))).registry.get? x.1.name).isSome &&
          x.2.within Pool.maxLevels && x.2.encode = [10, 0, 16, 7]) = true := by cbv
  obtain ⟨⟨ty, m⟩, hm, hc⟩ := (Option.any_eq_true _ _).mp hreach
  simp only [Bool.and_eq_true, decide_eq_true_eq] at hc
  obtain ⟨⟨⟨hname, hreg⟩, hw⟩, he⟩ := hc
  obtain ⟨hresults, hencodings⟩ := message_results_canonical hreport
  obtain ⟨c, hextract, hcanonical⟩ := hresults hm hreg hw
  obtain rfl : c = m.encode := by simpa using (hextract false).symm.trans (extract_of_reach? hm false)
  obtain ⟨t, -, ht, -, -⟩ := reach?_inv hm
  refine ⟨he ▸ hextract false, ?_, ?_⟩
  · rw [← he, ← hname]
    exact hcanonical (by simp [he])
  · exact hencodings ht (Pool.empty_fits _ _) rfl (by decide)

end Registry

end WireQuery
