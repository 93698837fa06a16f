import WireQuery.Proofs.Extract.Reached

namespace WireQuery

/-- A list that is not set is empty. -/
theorem Message.list_of_unset {m : Message} (h : m.has f = false) (hv : m.get f = .list vs) : vs = [] := by
  unfold Message.has at h
  unfold Message.get at hv
  cases hg : m.get? f with
  | none =>
    rw [hg, Option.getD_none] at hv
    unfold FieldDef.initial at hv
    split at hv
    · contradiction
    · split at hv
      · exact (Value.list.inj hv).symm
      · contradiction
    · split at hv
      · exact (Value.list.inj hv).symm
      · contradiction
  | some v =>
    rw [hg] at h hv
    obtain rfl : v = .list vs := hv
    have hset : f.presence = false ∧ vs = [] := by simpa [FieldDef.isSet, FieldDef.isInitial] using h
    exact hset.2

theorem Value.Shows.ne_absent {v : Value} (h : v.Shows p kind node) : node ≠ .absent := by
  cases h <;> exact Node.noConfusion

/-- Only a message leads on. -/
theorem Value.Shows.not_leads {v : Value} (h : v.Shows p kind node) (hk : kind.isMessage = false) :
    ¬Node.Leads p node step next := by
  intro hl
  cases h with
  | message ht => contradiction
  | enum he => contradiction
  | scalar hs => contradiction

namespace Node

variable {p : Pool}

/-- Only an unset message leads to a node that is not there. -/
theorem Leads.absent (h : Leads p node step .absent) :
    ∃ ty m name f, node = .message ty m ∧ step = .field name ∧ ty.field? name = some f ∧ m.Lacks f := by
  cases h with
  | unset hf hl => exact ⟨_, _, _, _, rfl, rfl, hf, hl⟩
  | value hf hr hl hs => exact absurd rfl hs.ne_absent
  | element hv hi hs => exact absurd rfl hs.ne_absent

theorem reaches_absent_iff : Reaches p (.message ty m) steps .absent ↔
    ∃ before name ty' m' f, steps = before ++ [.field name] ∧ Reaches p (.message ty m) before (.message ty' m') ∧
      ty'.field? name = some f ∧ m'.Lacks f := by
  constructor
  · intro h
    rcases List.eq_nil_or_concat steps with rfl | ⟨before, last, rfl⟩
    · contradiction
    · obtain ⟨mid, hb, hlast⟩ := reaches_append.mp (List.concat_eq_append ▸ h)
      cases hlast with
      | step hl hr =>
        cases hr
        obtain ⟨ty', m', name, f, rfl, rfl, hf, hu⟩ := hl.absent
        exact ⟨before, name, ty', m', f, List.concat_eq_append, hb, hf, hu⟩
  · rintro ⟨before, name, ty', m', f, rfl, hb, hf, hu⟩
    exact reaches_append.mpr ⟨_, hb, .step (.unset hf hu) .here⟩

theorem Reaches.of_end (h : Reaches p node steps last) (hn : ∀ step next, ¬Leads p node step next) : last = node := by
  cases h with
  | here => rfl
  | step hl hr => exact absurd hl (hn _ _)

end Node

namespace Walk

variable {w : Walk}

theorem go_absent (w : Walk) (steps : List Step) : w.go .absent steps = .ok ⟨.null, []⟩ := by
  cases steps <;> rfl

theorem datum_ne_null (s : Scalar) : s.datum ≠ .null := by
  cases s <;> exact Datum.noConfusion

theorem finish_null (hn : node.Fits w.pool) (h : w.finish node = .ok ⟨.null, ws⟩) : node = .absent := by
  cases hn with
  | absent => rfl
  | scalar => exact absurd (congrArg Extraction.value (Except.ok.inj h)) (datum_ne_null _)
  | _ => simp [finish] at h

theorem accessor_ne_null (n : Int32) (e : EnumDef) (name : String) : accessor n e name ≠ .ok ⟨.null, ws⟩ := by
  unfold accessor
  split
  · simp
  · split <;> simp
  · simp

/-- A walk that gives null came to a node that is not there. -/
theorem go_null (hp : w.pool.Sound) (hn : node.Fits w.pool) (h : w.go node steps = .ok ⟨.null, ws⟩) :
    ∃ before after, steps = before ++ after ∧ Node.Reaches w.pool node before .absent := by
  cases go_ends hp hn h with
  | absent hs hr hx => exact ⟨_, _, hs, hr⟩
  | reached hr hx =>
    obtain rfl := finish_null (hr.fits hp hn) hx
    exact ⟨_, [], (List.append_nil _).symm, hr⟩
  | accessor hs hr hx => exact absurd hx (accessor_ne_null _ _ _)

/-- Nothing after a node that is not there changes that it gives null. -/
theorem go_of_reaches_absent (h : Node.Reaches w.pool node before .absent) (after : List Step) :
    w.go node (before ++ after) = .ok ⟨.null, []⟩ := by
  rw [go_follow (Node.follow?_of_reaches h), go_absent]

end Walk

namespace Registry

/-- On its way the path asks a message that it reaches for another one that is not set in it. -/
def MeetsUnset (r : Registry) (b : Bytes) (type : String) (path : Path) : Prop :=
  ∃ before name after ty m f, path.steps = before ++ .field name :: after ∧
    r.Reaches b type ⟨before⟩ (.message ty m) ∧ ty.field? name = some f ∧ m.Lacks f

/-- An extraction starts from the message that was read, or fails without null. -/
theorem read_of_extract {r : Registry} (h : r.extract warn b type path = .ok x) :
    ∃ t m, r.message? type = .ok t ∧ t.pool.read? t.definition b = some m ∧
      (Walk.mk t.pool type path warn).go (.message t.definition m) path.steps = .ok x := by
  cases ht : r.message? type with
  | error e =>
    rw [extract_unknown ht] at h
    contradiction
  | ok t =>
    cases hread : t.pool.read? t.definition b with
    | none =>
      rw [extract_of_corrupt ht hread] at h
      contradiction
    | some m => exact ⟨t, m, rfl, hread, (extract_of_read ht hread warn path).symm.trans h⟩

theorem meetsUnset_of_null (h : (empty.run history).extract warn b type path = .ok ⟨.null, ws⟩) :
    (empty.run history).MeetsUnset b type path := by
  obtain ⟨t, m, ht, hread, hgo⟩ := read_of_extract h
  obtain ⟨hp, hroot⟩ := root_fits ht hread
  obtain ⟨upto, after, hsteps, hr⟩ := Walk.go_null hp hroot hgo
  obtain ⟨before, name, ty, m', f, rfl, hb, hf, hu⟩ := Node.reaches_absent_iff.mp hr
  exact ⟨before, name, after, ty, m', f, by simpa using hsteps, ⟨t, m, ht, hread, hb⟩, hf, hu⟩

theorem null_of_meetsUnset {r : Registry} (h : r.MeetsUnset b type path) (warn : Bool) (rest : List Step) :
    r.extract warn b type ⟨path.steps ++ rest⟩ = .ok ⟨.null, []⟩ := by
  obtain ⟨before, name, after, ty, m', f, hsteps, ⟨t, m, ht, hread, hb⟩, hf, hu⟩ := h
  have habsent := Node.reaches_absent_iff.mpr ⟨before, name, ty, m', f, rfl, hb, hf, hu⟩
  have hgo := Walk.go_of_reaches_absent (w := ⟨t.pool, type, ⟨path.steps ++ rest⟩, warn⟩) habsent (after ++ rest)
  have hpath : path.steps ++ rest = before ++ [.field name] ++ (after ++ rest) := by simp [hsteps]
  rw [extract_of_read ht hread, ← hgo, hpath]

/-- A field that is not for a message, or a list that is not set, is no way to null. -/
theorem not_null_after (hr : (empty.run history).Reaches b type ⟨before⟩ (.message ty m)) (hf : ty.field? name = some f)
    (hn : f.isRepeated = false ∧ f.kind.isMessage = false ∨ f.isRepeated = true ∧ m.has f = false) :
    (empty.run history).extract warn b type ⟨before ++ .field name :: after⟩ ≠ .ok ⟨.null, ws⟩ := by
  obtain ⟨t, ht, hp, hfits, hgo⟩ := hr.extract
  rw [hgo]
  intro h
  obtain ⟨upto, rest, hsteps, habsent⟩ := Walk.go_null (w := ⟨t.pool, _, _, _⟩) hp hfits h
  cases habsent with
  | step hl hnext =>
    obtain ⟨rfl, -⟩ := List.cons.inj hsteps
    cases hl with
    | unset hf' hu =>
      obtain rfl := Option.some.inj (hf.symm.trans hf')
      obtain ⟨⟨target, hk⟩, hr, -⟩ := hu
      rcases hn with ⟨-, hm⟩ | ⟨hr', -⟩
      · rw [hk] at hm
        contradiction
      · exact Bool.false_ne_true (hr.symm.trans hr')
    | value hf' hr hl hs =>
      obtain rfl := Option.some.inj (hf.symm.trans hf')
      rcases hn with ⟨-, hm⟩ | ⟨hr', -⟩
      · exact hs.ne_absent (hnext.of_end (fun _ _ => hs.not_leads hm)).symm
      · exact Bool.false_ne_true (hr.symm.trans hr')
    | list hf' hk hr hv =>
      obtain rfl := Option.some.inj (hf.symm.trans hf')
      rcases hn with ⟨hr', -⟩ | ⟨-, hu⟩
      · exact Bool.false_ne_true (hr'.symm.trans hr)
      · obtain rfl := Message.list_of_unset hu hv
        refine Node.noConfusion (hnext.of_end ?_)
        intro step next hl
        cases hl with
        | element hv => contradiction

/-- A path gives null exactly if on its way it asks a message for one that is not set in it, and then it does so however
it goes on, even where that makes no sense. A field for anything but a message, set or not, and a list that is not set
are no way to null. -/
theorem null_iff_meetsUnset (history : List Request) (b : Bytes) (type : String) (path : Path) (warn : Bool) :
    let r := empty.run history
    ((∃ ws, r.extract warn b type path = .ok ⟨.null, ws⟩) ↔ r.MeetsUnset b type path) ∧
    ((∃ ws, r.extract warn b type path = .ok ⟨.null, ws⟩) → ∀ rest warn',
      r.extract warn' b type ⟨path.steps ++ rest⟩ = .ok ⟨.null, []⟩) ∧
    ∀ before name after ty m f, path.steps = before ++ .field name :: after →
      r.Reaches b type ⟨before⟩ (.message ty m) → ty.field? name = some f →
      f.isRepeated = false ∧ f.kind.isMessage = false ∨ f.isRepeated = true ∧ m.has f = false →
        ∀ ws, r.extract warn b type path ≠ .ok ⟨.null, ws⟩ := by
  intro r
  refine ⟨⟨?_, ?_⟩, ?_, ?_⟩
  · rintro ⟨ws, h⟩
    exact meetsUnset_of_null h
  · intro h
    have hnull := null_of_meetsUnset h warn []
    rw [List.append_nil] at hnull
    exact ⟨[], hnull⟩
  · rintro ⟨ws, h⟩ rest warn'
    exact null_of_meetsUnset (meetsUnset_of_null h) warn' rest
  · rintro before name after ty m f hsteps hr hf hn ws
    obtain ⟨steps⟩ := path
    obtain rfl : steps = _ := hsteps
    exact not_null_after hr hf hn

theorem number_of_empty_node : ((empty.run [chainLoad]).node? [] "N" .root).any (fun node =>
    match node with
    | .message ty _ => (ty.field? "x").any (fun f => !f.isRepeated && !f.kind.isMessage)
    | _ => false) = true := by cbv

/-- A node without a next one: what is asked of that is null, and the number is zero instead. With a next one that has
none itself, the next one is no null, and what is asked of the one after it is. -/
theorem unset_next_is_null :
    let r := empty.run [chainLoad]
    (∀ rest, r.extract true [] "N" ⟨[.field "next"] ++ rest⟩ = .ok ⟨.null, []⟩) ∧
    (∀ ws, r.extract true [] "N" ⟨[.field "x"]⟩ ≠ .ok ⟨.null, ws⟩) ∧
    r.extract true [10, 0] "N" ⟨[.field "next"]⟩ = .ok ⟨.blob [], []⟩ ∧
    ¬r.MeetsUnset [10, 0] "N" ⟨[.field "next"]⟩ ∧
    r.MeetsUnset [10, 0] "N" ⟨[.field "next", .field "next"]⟩ ∧
    ∀ rest, r.extract true [10, 0] "N" ⟨[.field "next", .field "next"] ++ rest⟩ = .ok ⟨.null, []⟩ := by
  have hunset : (empty.run [chainLoad]).extract true [] "N" ⟨[.field "next"]⟩ = .ok ⟨.null, []⟩ := by cbv
  have hset : (empty.run [chainLoad]).extract true [10, 0] "N" ⟨[.field "next"]⟩ = .ok ⟨.blob [], []⟩ := by cbv
  have hbelow : (empty.run [chainLoad]).extract true [10, 0] "N" ⟨[.field "next", .field "next"]⟩ =
      .ok ⟨.null, []⟩ := by cbv
  obtain ⟨-, hrest, -⟩ := null_iff_meetsUnset [chainLoad] [] "N" ⟨[.field "next"]⟩ true
  obtain ⟨-, -, hnumber⟩ := null_iff_meetsUnset [chainLoad] [] "N" ⟨[.field "x"]⟩ true
  obtain ⟨hmeets, -, -⟩ := null_iff_meetsUnset [chainLoad] [10, 0] "N" ⟨[.field "next"]⟩ true
  obtain ⟨hmeetsBelow, hrestBelow, -⟩ := null_iff_meetsUnset [chainLoad] [10, 0] "N" ⟨[.field "next", .field "next"]⟩ true
  refine ⟨fun rest => hrest ⟨[], hunset⟩ rest true, ?_, hset, ?_, hmeetsBelow.mp ⟨[], hbelow⟩,
    fun rest => hrestBelow ⟨[], hbelow⟩ rest true⟩
  · obtain ⟨node, hnode, h⟩ := (Option.any_eq_true _ _).mp number_of_empty_node
    cases node with
    | message ty m =>
      obtain ⟨f, hf, h⟩ := (Option.any_eq_true _ _).mp h
      simp only [Bool.and_eq_true, Bool.not_eq_true'] at h
      exact hnumber [] "x" [] ty m f rfl (reaches_iff.mpr hnode) hf (.inl h)
    | _ => contradiction
  · intro h
    obtain ⟨ws, hnull⟩ := hmeets.mpr h
    rw [hset] at hnull
    simp at hnull

end Registry

end WireQuery
