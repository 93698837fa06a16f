import WireQuery.Proofs.Extract.Absent
import WireQuery.Proofs.Path.Grammar

namespace WireQuery

theorem Value.Shows.ne_repeated {v : Value} (h : v.Shows p kind node) : node ≠ .repeated f vs := by
  cases h <;> exact Node.noConfusion

namespace Node

/-- The position as it is computed in 64 bits; nothing if the length or a sum on the way is out of their range. -/
def checkedPosition? (i : Int64) (length : Nat) : Option (Option Nat) := do
  let n ← Path.int64OfInt? length
  let i ← if i < 0 then Path.int64OfInt? (i.toInt + n.toInt) else some i
  some (if 0 ≤ i ∧ i < n then some i.toInt.toNat else none)

/-- Sixty-four bits are enough for the lists that have their lengths in them. -/
theorem checkedPosition?_eq {length : Nat} (h : length < 2 ^ 63) (i : Int64) :
    checkedPosition? i length = some (position? i length) := by
  have hrange {z : Int} (hl : -2 ^ 63 ≤ z) (hu : z < 2 ^ 63) : ∃ j, Path.int64OfInt? z = some j ∧ j.toInt = z :=
    ⟨Int64.ofInt z, Path.int64OfInt?_iff.mpr (Int64.toInt_ofInt_of_le hl hu), Int64.toInt_ofInt_of_le hl hu⟩
  obtain ⟨n, hn, hlength⟩ := hrange (z := length) (by omega) (by omega)
  have hzero : (0 : Int64).toInt = 0 := rfl
  have hl := i.le_toInt
  have hu := i.toInt_lt
  have hfound (j : Int64) : (if 0 ≤ j ∧ j < n then some j.toInt.toNat else none) =
      if 0 ≤ j.toInt ∧ j.toInt < length then some j.toInt.toNat else none := by
    simp only [Int64.le_iff_toInt_le, Int64.lt_iff_toInt_lt, hzero, hlength]
  simp only [checkedPosition?, position?, hn, Option.bind_eq_bind, Option.bind_some]
  by_cases hi : i.toInt < 0
  · obtain ⟨j, hj, hsum⟩ := hrange (z := i.toInt + n.toInt) (by omega) (by omega)
    rw [if_pos (by rwa [Int64.lt_iff_toInt_lt]), hj, Option.bind_some, hfound, if_pos hi, hsum, hlength]
  · simp only [if_neg (show ¬i < 0 by rwa [Int64.lt_iff_toInt_lt]), hfound, if_neg hi]

section

variable {p : Pool} {f : FieldDef} {vs : List Value} {i j : Int64}

theorem index_eq_of_position? (hi : position? i vs.length = some k) (hj : position? j vs.length = some k) :
    Node.index p f vs i = Node.index p f vs j := by
  have hlt : k < vs.length := (position?_eq_some.mp hi).1
  simp only [Node.index, hi, hj, Option.bind_some, List.getElem?_eq_getElem hlt]

theorem index_outside (hi : i.toInt < -vs.length ∨ vs.length ≤ i.toInt) :
    Node.index p f vs i = .error (.indexOutOfRange i f.name vs.length) := by
  have hnone : position? i vs.length = none := by
    refine Option.eq_none_iff_forall_ne_some.mpr (fun k hk => ?_)
    have := position?_eq_some.mp hk
    omega
  rw [Node.index, hnone]
  rfl

/-- The items are the list that the message holds under the field. -/
theorem get_of_reaches (hb : Reaches p node before (.message ty m))
    (h : Reaches p node (before ++ [.field name]) (.repeated f vs)) : m.get f = .list vs := by
  obtain ⟨mid, hmid, hlast⟩ := reaches_append.mp h
  obtain rfl := hb.unique hmid
  cases hlast with
  | step hl hr =>
    cases hr
    cases hl with
    | list hf hk hr hv => exact hv
    | value hf hr hl hs => exact absurd rfl hs.ne_repeated

end

end Node

namespace Walk

variable {w w' : Walk}

/-- What a walk gives does not hang on its path as a whole, which is told beside it only. -/
theorem go_value (hp : w.pool.Sound) (hw : w'.pool = w.pool) (hn : node.Fits w.pool) (steps : List Step) :
    (w.go node steps).map (·.value) = (w'.go node steps).map (·.value) := by
  induction steps generalizing node with
  | nil =>
    -- The path is in a warning, or in an error about a node that does not fit.
    rw [go_nil, go_nil]
    cases hn <;> rfl
  | cons step steps ih =>
    cases hn with
    | @message ty m ht hm =>
      cases step with
      | field name =>
        rw [go, go, hw]
        cases hx : Node.field w.pool ty m name with
        | error e => rfl
        | ok next => exact ih (Node.field_leads hp ht hm hx).2
      | index i => rfl
    | @repeated vs f hk hv =>
      cases step with
      | field name => rfl
      | index i =>
        rw [go, go, hw]
        cases hx : Node.index w.pool f vs i with
        | error e => rfl
        | ok next => exact ih (Node.index_leads hk hv hx).2
    | enum =>
      cases step with
      | field name => cases steps <;> rfl
      | index i => rfl
    | scalar => cases step <;> rfl
    | absent => cases step <;> rfl

end Walk

namespace Registry

variable {f : FieldDef} {vs : List Value}

/-- Where the index of an element is given, the walk goes on from that element. -/
theorem Reaches.element {k : Nat} {i : Int64} (h : (empty.run history).Reaches b type path (.repeated f vs))
    (hv : vs[k]? = some v) (hi : i.toInt = k) :
    ∃ t node, (empty.run history).message? type = .ok t ∧ v.Shows t.pool f.kind node ∧
      (empty.run history).Reaches b type ⟨path.steps ++ [.index i]⟩ node ∧ ∀ (rest : List Step) (warn : Bool),
        (empty.run history).extract warn b type ⟨path.steps ++ .index i :: rest⟩ =
          (Walk.mk t.pool type ⟨path.steps ++ .index i :: rest⟩ warn).go node rest := by
  obtain ⟨t, ht, hp, hfits, hgo⟩ := h.extract
  cases hfits with
  | repeated hk hall =>
    have hs := (hall v (List.mem_of_getElem? hv)).shows hk
    have hl : Node.Leads t.pool (.repeated f vs) (.index i) _ := .element hv (.inl hi) hs
    refine ⟨t, _, ht, hs, h.snoc ht hl, fun rest warn => ?_⟩
    rw [hgo, Walk.go, Node.index_of_leads hl]
    rfl

/-- An index below zero and the index of the same element from the start give the same. -/
theorem Reaches.element_from_end {i j : Int64} (h : (empty.run history).Reaches b type path (.repeated f vs))
    (hl : -vs.length ≤ i.toInt) (hn : i.toInt < 0) (hj : j.toInt = vs.length + i.toInt) (rest : List Step)
    (warn : Bool) : ((empty.run history).extract warn b type ⟨path.steps ++ .index i :: rest⟩).map (·.value) =
      ((empty.run history).extract warn b type ⟨path.steps ++ .index j :: rest⟩).map (·.value) := by
  obtain ⟨t, -, hp, hfits, hgo⟩ := h.extract
  have hlt : j.toInt.toNat < vs.length := by omega
  have hi := Node.position?_eq_some.mpr ⟨hlt, .inr (show i.toInt = _ by omega)⟩
  have hj := Node.position?_eq_some.mpr ⟨hlt, .inl (show j.toInt = _ by omega)⟩
  rw [hgo, hgo, Walk.go, Walk.go, Node.index_eq_of_position? hi hj]
  cases hx : Node.index t.pool f vs j with
  | error e => rfl
  | ok next =>
    cases hfits with
    | repeated hk hall =>
      exact Walk.go_value (w := ⟨t.pool, _, _, _⟩) hp (by rfl) (Node.index_leads hk hall hx).2 rest

/-- Nothing is listed under a field that is not set. -/
theorem Reaches.empty_of_unset (h : (empty.run history).Reaches b type ⟨before ++ [.field name]⟩ (.repeated f vs))
    (hb : (empty.run history).Reaches b type ⟨before⟩ (.message ty m)) (hu : m.has f = false) : vs.length = 0 := by
  obtain ⟨t, m₀, -, hbefore, hlist⟩ := hb.same_start h
  rw [Message.list_of_unset hu (Node.get_of_reaches hbefore hlist), List.length_nil]

/-- At a list an index that counts from the start leads on from the element there, and one below zero that counts from
the end does as the one that counts from the start to the same element. Any other fails and tells the index, the field
and the length, which is zero if the field is not set. To find the position, 64 bits are enough at every step. -/
theorem index_selects_element (h : (empty.run history).Reaches b type path (.repeated f vs)) (i : Int64) :
    let r := empty.run history
    (∀ (k : Nat) (v : Value), vs[k]? = some v → i.toInt = k → ∃ t node, r.message? type = .ok t ∧
      v.Shows t.pool f.kind node ∧ r.Reaches b type ⟨path.steps ++ [.index i]⟩ node ∧
        ∀ (rest : List Step) (warn : Bool), r.extract warn b type ⟨path.steps ++ .index i :: rest⟩ =
          (Walk.mk t.pool type ⟨path.steps ++ .index i :: rest⟩ warn).go node rest) ∧
    (∀ j : Int64, -vs.length ≤ i.toInt → i.toInt < 0 → j.toInt = vs.length + i.toInt →
      ∀ (rest : List Step) (warn : Bool), (r.extract warn b type ⟨path.steps ++ .index i :: rest⟩).map (·.value) =
        (r.extract warn b type ⟨path.steps ++ .index j :: rest⟩).map (·.value)) ∧
    (i.toInt < -vs.length ∨ vs.length ≤ i.toInt → ∀ (rest : List Step) (warn : Bool),
      r.extract warn b type ⟨path.steps ++ .index i :: rest⟩ = .error (.indexOutOfRange i f.name vs.length)) ∧
    (∀ before name (ty : MessageDef) (m : Message), path.steps = before ++ [.field name] →
      r.Reaches b type ⟨before⟩ (.message ty m) → m.has f = false → vs.length = 0) ∧
    (vs.length < 2 ^ 63 → Node.checkedPosition? i vs.length = some (Node.position? i vs.length)) := by
  intro r
  refine ⟨?_, ?_, ?_, ?_, ?_⟩
  · intro k v hv hi
    exact h.element hv hi
  · intro j hl hn hj rest warn
    exact h.element_from_end hl hn hj rest warn
  · intro hi rest warn
    obtain ⟨t, -, -, -, hgo⟩ := h.extract
    rw [hgo, Walk.go, Node.index_outside hi]
    rfl
  · intro before name ty m hsteps hb hu
    obtain ⟨steps⟩ := path
    obtain rfl : steps = _ := hsteps
    exact h.empty_of_unset hb hu
  · intro hlength
    exact Node.checkedPosition?_eq hlength i

def listLoad : Request := .load .allow (.memory (FileDecl.writeBundle [Samples.repeated]))

theorem three_listed : ((empty.run [listLoad]).node? [8, 5, 8, 6, 8, 7] "M" ⟨[.field "x"]⟩).any (fun node =>
    match node with
    | .repeated f vs => f.name == "x" && vs.length == 3
    | _ => false) = true := by cbv

/-- In a list of three, one before the end is the last, and there is none at three. -/
theorem last_of_three_is_third :
    let r := empty.run [listLoad]
    (∃ f vs, r.Reaches [8, 5, 8, 6, 8, 7] "M" ⟨[.field "x"]⟩ (.repeated f vs) ∧ f.name = "x" ∧ vs.length = 3) ∧
      (r.extract false [8, 5, 8, 6, 8, 7] "M" ⟨[.field "x", .index (-1)]⟩).map (·.value) =
        (r.extract false [8, 5, 8, 6, 8, 7] "M" ⟨[.field "x", .index 2]⟩).map (·.value) ∧
      r.extract false [8, 5, 8, 6, 8, 7] "M" ⟨[.field "x", .index 3]⟩ = .error (.indexOutOfRange 3 "x" 3) := by
  intro r
  obtain ⟨node, hnode, h⟩ := (Option.any_eq_true _ _).mp three_listed
  cases node with
  | repeated f vs =>
    obtain ⟨hname, hlength⟩ := (Bool.and_eq_true _ _).mp h
    have hr := reaches_iff.mpr hnode
    obtain ⟨-, hlast, -⟩ := index_selects_element hr (-1)
    obtain ⟨-, -, hpast, -⟩ := index_selects_element hr 3
    rw [eq_of_beq hname, eq_of_beq hlength] at hpast
    rw [eq_of_beq hlength] at hlast
    refine ⟨⟨f, vs, hr, eq_of_beq hname, eq_of_beq hlength⟩, ?_, ?_⟩
    · exact hlast 2 (by decide) (by decide) (by decide) [] false
    · exact hpast (.inr (by decide)) [] false
  | _ => contradiction

end Registry

end WireQuery
