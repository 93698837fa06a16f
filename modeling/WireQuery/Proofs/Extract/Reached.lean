import WireQuery.Proofs.Extract.EnumValues
import WireQuery.Proofs.Extract.Typing

namespace WireQuery

/-- What one value of a field is on a path, by the kind of the field. -/
inductive Value.Shows (p : Pool) : Kind → Value → Node → Prop
  | message (ht : p.message? name = some ty) : Shows p (.message name) (.message m) (.message ty m)
  | enum (he : p.enum? name = some e) : Shows p (.enum name) (.scalar (.enum n)) (.enum n e)
  | scalar (hs : s.kind? = some kind) : Shows p (.scalar kind) (.scalar s) (.single (.scalar s))

/-- The field is for one message, or group, and is not set. -/
structure Message.Lacks (m : Message) (f : FieldDef) : Prop where
  message : ∃ target, f.kind = .message target
  singular : f.isRepeated = false
  unset : m.has f = false

namespace Node

inductive Leads (p : Pool) : Node → Step → Node → Prop
  | unset (hf : ty.field? name = some f) (hl : m.Lacks f) : Leads p (.message ty m) (.field name) .absent
  | value (hf : ty.field? name = some f) (hr : f.isRepeated = false) (hl : ¬m.Lacks f)
    (hs : (m.get f).Shows p f.kind node) : Leads p (.message ty m) (.field name) node
  | list (hf : ty.field? name = some f) (hk : f.kind.isMap = false) (hr : f.isRepeated = true)
    (hv : m.get f = .list vs) : Leads p (.message ty m) (.field name) (.repeated f vs)
  /-- Elements are counted from the start, or below zero from the end. -/
  | element {k : Nat} {i : Int64} (hv : vs[k]? = some v) (hi : i.toInt = k ∨ i.toInt = k - vs.length)
    (hs : v.Shows p f.kind node) : Leads p (.repeated f vs) (.index i) node

inductive Reaches (p : Pool) : Node → List Step → Node → Prop
  | here : Reaches p node [] node
  | step (hl : Leads p node step next) (hr : Reaches p next steps last) : Reaches p node (step :: steps) last

/-- What is known of the nodes on the way of a path. -/
inductive Fits (p : Pool) : Node → Prop
  | message (ht : ty ∈ p.messages) (hm : p.Fits Pool.maxLevels ty m) : Fits p (.message ty m)
  | repeated (hk : f.kind.Known p) (hv : ∀ v ∈ vs, v.FitsOne p (p.Fits Pool.maxLevels) f) : Fits p (.repeated f vs)
  | enum : Fits p (.enum n e)
  | scalar : Fits p (.single (.scalar s))
  | absent : Fits p .absent

end Node

namespace Value

variable {p : Pool} {v : Value}

theorem Shows.ofValue_eq (h : v.Shows p kind node) : Node.ofValue p kind v = node := by
  cases h with
  | message ht => simp [Node.ofValue, ht]
  | enum he => simp [Node.ofValue, he]
  | scalar hs => rfl

theorem FitsOne.shows (hv : v.FitsOne p nested f) (hk : f.kind.Known p) :
    v.Shows p f.kind (Node.ofValue p f.kind v) := by
  suffices h : ∃ node, v.Shows p f.kind node by
    obtain ⟨node, hs⟩ := h
    rwa [hs.ofValue_eq]
  cases v with
  | scalar s =>
    have hs : f.kind.readScalar? s.payload = some s := hv
    cases hc : f.kind with
    | scalar kind =>
      rw [hc] at hs
      exact ⟨_, .scalar (ScalarKind.kind?_of_read? hs)⟩
    | enum name =>
      rw [hc] at hs hk
      obtain ⟨n, rfl⟩ := readEnum?_inv hs
      obtain ⟨e, he⟩ := Option.isSome_iff_exists.mp hk
      exact ⟨_, .enum he⟩
    | message name => simp [hc, Kind.readScalar?] at hs
    | map name => simp [hc, Kind.readScalar?] at hs
  | message m =>
    obtain ⟨name, ty, hc, ht, -⟩ := hv
    rw [hc]
    exact ⟨_, .message ht⟩
  | list vs => exact False.elim hv
  | map entries => exact False.elim hv

theorem Shows.fits (h : v.Shows p f.kind node) (hv : v.FitsOne p (p.Fits Pool.maxLevels) f) : node.Fits p := by
  generalize hk : f.kind = kind at h
  cases h with
  | message ht =>
    obtain ⟨name, ty, hk', ht', hm⟩ := hv
    rw [hk] at hk'
    cases hk'
    rw [ht] at ht'
    cases ht'
    exact .message (List.mem_of_find?_eq_some ht) hm
  | enum he => exact .enum
  | scalar hs => exact .scalar

end Value

namespace Node

variable {p : Pool}

theorem position?_eq_some {i : Int64} {n k : Nat} :
    position? i n = some k ↔ k < n ∧ (i.toInt = k ∨ i.toInt = k - n) := by
  unfold position?
  dsimp only
  split
  · split
    · rw [Option.some.injEq]
      omega
    · simp only [reduceCtorEq, false_iff]
      omega
  · split
    · rw [Option.some.injEq]
      omega
    · simp only [reduceCtorEq, false_iff]
      omega

theorem field_leads (hp : p.Sound) (ht : ty ∈ p.messages) (hm : p.Fits Pool.maxLevels ty m)
    (h : Node.field p ty m name = .ok next) : Leads p (.message ty m) (.field name) next ∧ next.Fits p := by
  have hknown {f : FieldDef} (hf : ty.field? name = some f) : f.kind.Known p :=
    ((hp.messages ty ht).fields f (List.mem_of_find?_eq_some hf)).2.known
  have hstep := field_step hp ht hm name
  rw [h] at hstep
  generalize hx : (Except.ok next : Except Error Node) = x at hstep
  cases hstep with
  | unknown hf => contradiction
  | map hf hk => contradiction
  | list hf hk hr hg hv =>
    cases hx
    exact ⟨.list hf hk hr hg, .repeated (hknown hf) hv⟩
  | @message f target hf hk hr hv =>
    cases hset : m.has f with
    | true =>
      rw [hset] at hx
      cases hx
      have hs := hv.shows (hknown hf)
      exact ⟨.value hf hr (fun hl => Bool.false_ne_true (hl.unset.symm.trans hset)) hs, hs.fits hv⟩
    | false =>
      rw [hset] at hx
      cases hx
      exact ⟨.unset hf ⟨⟨target, hk⟩, hr, hset⟩, .absent⟩
  | single hf hk hr hv =>
    cases hx
    have hs := hv.shows (hknown hf)
    refine ⟨.value hf hr ?_ hs, hs.fits hv⟩
    rintro ⟨⟨target, hk'⟩, -, -⟩
    rw [hk'] at hk
    contradiction

theorem field_of_shows (hf : ty.field? name = some f) (hr : f.isRepeated = false) (hl : ¬m.Lacks f)
    (hs : (m.get f).Shows p f.kind node) : Node.field p ty m name = .ok node := by
  rw [← hs.ofValue_eq]
  cases hk : f.kind with
  | message target =>
    have hset : m.has f = true := by
      cases hset : m.has f with
      | true => rfl
      | false => exact absurd ⟨⟨target, hk⟩, hr, hset⟩ hl
    rw [field_message hf hk hr, if_pos hset, hk]
  | map target =>
    rw [hk] at hs
    contradiction
  | _ => rw [field_single hf (by simp [hk, Kind.isMessage]) hr, hk]

theorem field_of_leads (h : Leads p (.message ty m) (.field name) next) : Node.field p ty m name = .ok next := by
  cases h with
  | unset hf hl =>
    obtain ⟨⟨target, hk⟩, hr, hu⟩ := hl
    rw [field_message hf hk hr, hu]
    rfl
  | value hf hr hl hs => exact field_of_shows hf hr hl hs
  | list hf hk hr hv => exact field_list hf hk hr hv

theorem index_leads (hk : f.kind.Known p) (hv : ∀ v ∈ vs, v.FitsOne p (p.Fits Pool.maxLevels) f)
    (h : Node.index p f vs i = .ok next) : Leads p (.repeated f vs) (.index i) next ∧ next.Fits p := by
  unfold Node.index at h
  split at h
  · next v hi =>
    cases h
    obtain ⟨k, hpos, hget⟩ := Option.bind_eq_some_iff.mp hi
    have hone := hv v (List.mem_of_getElem? hget)
    have hs := hone.shows hk
    exact ⟨.element hget (position?_eq_some.mp hpos).2 hs, hs.fits hone⟩
  · contradiction

theorem index_of_leads (h : Leads p (.repeated f vs) (.index i) next) : Node.index p f vs i = .ok next := by
  cases h with
  | element hv hi hs =>
    have hpos := position?_eq_some.mpr ⟨(List.getElem?_eq_some_iff.mp hv).1, hi⟩
    rw [Node.index, hpos, Option.bind_some, hv, ← hs.ofValue_eq]

/-- Where a step can be taken, it leads where the rules say. -/
theorem next?_leads (hp : p.Sound) (hn : node.Fits p) (h : next? p node step = some next) :
    Leads p node step next ∧ next.Fits p := by
  unfold next? at h
  split at h
  · cases hn with
    | message ht hm => exact field_leads hp ht hm (ok_of_toOption h)
  · cases hn with
    | repeated hk hv => exact index_leads hk hv (ok_of_toOption h)
  · contradiction

theorem next?_of_leads (h : Leads p node step next) : next? p node step = some next := by
  cases h with
  | element hv hi hs => rw [next?, index_of_leads (.element hv hi hs), Except.toOption]
  | unset hf hl => rw [next?, field_of_leads (.unset hf hl), Except.toOption]
  | value hf hr hl hs => rw [next?, field_of_leads (.value hf hr hl hs), Except.toOption]
  | list hf hk hr hv => rw [next?, field_of_leads (.list hf hk hr hv), Except.toOption]

theorem follow?_reaches (hp : p.Sound) (hn : node.Fits p) (h : follow? p node steps = some last) :
    Reaches p node steps last ∧ last.Fits p := by
  induction steps generalizing node with
  | nil =>
    cases h
    exact ⟨.here, hn⟩
  | cons step steps ih =>
    obtain ⟨next, hnext, h⟩ := Option.bind_eq_some_iff.mp h
    obtain ⟨hl, hfits⟩ := next?_leads hp hn hnext
    obtain ⟨hr, hlast⟩ := ih hfits h
    exact ⟨.step hl hr, hlast⟩

theorem follow?_of_reaches (h : Reaches p node steps last) : follow? p node steps = some last := by
  induction h with
  | here => rfl
  | step hl hr ih => exact Option.bind_eq_some_iff.mpr ⟨_, next?_of_leads hl, ih⟩

theorem Reaches.fits (h : Reaches p node steps last) (hp : p.Sound) (hn : node.Fits p) : last.Fits p :=
  (follow?_reaches hp hn (follow?_of_reaches h)).2

/-- One node at most is reached by the same steps. -/
theorem Reaches.unique (h : Reaches p node steps a) (h' : Reaches p node steps b) : a = b :=
  Option.some.inj ((follow?_of_reaches h).symm.trans (follow?_of_reaches h'))

theorem reaches_append : Reaches p node (before ++ after) last ↔
    ∃ mid, Reaches p node before mid ∧ Reaches p mid after last := by
  induction before generalizing node with
  | nil =>
    constructor
    · exact fun h => ⟨node, .here, h⟩
    · rintro ⟨mid, ⟨⟩, h⟩
      exact h
  | cons step before ih =>
    constructor
    · rintro (_ | ⟨hl, hr⟩)
      obtain ⟨mid, hb, ha⟩ := ih.mp hr
      exact ⟨mid, .step hl hb, ha⟩
    · rintro ⟨mid, _ | ⟨hl, hb⟩, ha⟩
      exact .step hl (ih.mpr ⟨mid, hb, ha⟩)

end Node

namespace Walk

variable {w : Walk}

/-- How a walk that gives a value ends: at what is not there, at the node its steps reach, or with an accessor. -/
inductive Ends (w : Walk) (node : Node) (steps : List Step) (x : Extraction) : Prop
  | absent (hs : steps = before ++ after) (hr : Node.Reaches w.pool node before .absent) (hx : x = ⟨.null, []⟩)
  | reached (hr : Node.Reaches w.pool node steps last) (hx : w.finish last = .ok x)
  | accessor (hs : steps = before ++ [.field name]) (hr : Node.Reaches w.pool node before (.enum n e))
    (hx : accessor n e name = .ok x)

theorem Ends.cons (hl : Node.Leads w.pool node step next) (h : w.Ends next steps x) : w.Ends node (step :: steps) x := by
  cases h with
  | absent hs hr hx => exact .absent (congrArg (step :: ·) hs) (.step hl hr) hx
  | reached hr hx => exact .reached (.step hl hr) hx
  | accessor hs hr hx => exact .accessor (congrArg (step :: ·) hs) (.step hl hr) hx

theorem go_ends (hp : w.pool.Sound) (hn : node.Fits w.pool) (h : w.go node steps = .ok x) : w.Ends node steps x := by
  induction steps generalizing node with
  | nil =>
    rw [go_nil] at h
    exact .reached .here h
  | cons step steps ih =>
    cases hn with
    | message ht hm =>
      cases step with
      | field name =>
        rw [go] at h
        cases hx : Node.field w.pool _ _ name with
        | error e =>
          rw [hx] at h
          contradiction
        | ok next =>
          rw [hx] at h
          obtain ⟨hl, hf⟩ := Node.field_leads hp ht hm hx
          exact (ih hf h).cons hl
      | index i => contradiction
    | repeated hk hv =>
      cases step with
      | field name => contradiction
      | index i =>
        rw [go] at h
        cases hx : Node.index w.pool _ _ i with
        | error e =>
          rw [hx] at h
          contradiction
        | ok next =>
          rw [hx] at h
          obtain ⟨hl, hf⟩ := Node.index_leads hk hv hx
          exact (ih hf h).cons hl
    | enum =>
      cases step with
      | field name =>
        cases steps with
        | nil => exact .accessor rfl .here h
        | cons next steps => contradiction
      | index i => contradiction
    | scalar => cases step <;> contradiction
    | absent => exact .absent rfl .here (Except.ok.inj h).symm

end Walk

namespace Registry

/-- The path leads to the node from the message that is read from the bytes. -/
def Reaches (r : Registry) (b : Bytes) (type : String) (path : Path) (node : Node) : Prop :=
  ∃ t m, r.message? type = .ok t ∧ t.pool.read? t.definition b = some m ∧
    Node.Reaches t.pool (.message t.definition m) path.steps node

/-- The start of every path. -/
theorem root_fits (ht : (empty.run history).message? type = .ok t) (hread : t.pool.read? t.definition b = some m) :
    t.pool.Sound ∧ (Node.message t.definition m).Fits t.pool := by
  obtain ⟨_, _, _, -, -, -, hp, hmem, -⟩ := origin_of_message? ht
  exact ⟨hp.sound, .message hmem (Pool.read?_fits hp.sound (hp.sound.messages _ hmem) hread)⟩

theorem reaches_iff : (empty.run history).Reaches b type path node ↔
    (empty.run history).node? b type path = some node := by
  unfold Reaches node?
  cases ht : (empty.run history).message? type with
  | error e => simp
  | ok t =>
    constructor
    · rintro ⟨_, m, ⟨⟩, hread, hr⟩
      exact Option.bind_eq_some_iff.mpr ⟨m, hread, Node.follow?_of_reaches hr⟩
    · intro h
      obtain ⟨m, hread, hf⟩ := Option.bind_eq_some_iff.mp h
      obtain ⟨hp, hroot⟩ := root_fits ht hread
      exact ⟨t, m, rfl, hread, (Node.follow?_reaches hp hroot hf).1⟩

/-- All paths into the same bytes start from the same message. -/
theorem Reaches.same_start {r : Registry} (h : r.Reaches b type path node) (h' : r.Reaches b type path' node') :
    ∃ t m, r.message? type = .ok t ∧ Node.Reaches t.pool (.message t.definition m) path.steps node ∧
      Node.Reaches t.pool (.message t.definition m) path'.steps node' := by
  obtain ⟨t, m, ht, hread, hr⟩ := h
  obtain ⟨_, _, ht', hread', hr'⟩ := h'
  obtain rfl := Except.ok.inj (ht.symm.trans ht')
  obtain rfl := Option.some.inj (hread.symm.trans hread')
  exact ⟨t, m, ht, hr, hr'⟩

theorem Reaches.snoc {r : Registry} (h : r.Reaches b type path node) (ht : r.message? type = .ok t)
    (hl : Node.Leads t.pool node step next) : r.Reaches b type ⟨path.steps ++ [step]⟩ next := by
  obtain ⟨t', m, ht', hread, hr⟩ := h
  obtain rfl := Except.ok.inj (ht.symm.trans ht')
  exact ⟨t, m, ht, hread, Node.reaches_append.mpr ⟨node, hr, .step hl .here⟩⟩

/-- Further steps are taken from the node that a path reaches. -/
theorem Reaches.extract (h : (empty.run history).Reaches b type path node) :
    ∃ t, (empty.run history).message? type = .ok t ∧ t.pool.Sound ∧ node.Fits t.pool ∧ ∀ warn rest,
      (empty.run history).extract warn b type ⟨path.steps ++ rest⟩ =
        (Walk.mk t.pool type ⟨path.steps ++ rest⟩ warn).go node rest := by
  obtain ⟨t, m, ht, hread, hr⟩ := h
  obtain ⟨hp, hroot⟩ := root_fits ht hread
  have hf := Node.follow?_of_reaches hr
  refine ⟨t, ht, hp, hr.fits hp hroot, fun warn rest => ?_⟩
  rw [extract_of_read ht hread]
  exact Walk.go_follow (w := ⟨t.pool, type, _, warn⟩) hf rest

end Registry

end WireQuery
