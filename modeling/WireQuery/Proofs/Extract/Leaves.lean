import WireQuery.Proofs.Extract.Reached

namespace WireQuery

/-- The error is about a step that cannot be taken, and not about where the path ends. -/
def Error.IsStep : Error → Prop
  | .unknownField .. | .indexOutOfRange .. => True
  | .invalidPath (.intoMap _) | .invalidPath (.indexOnMessage _) | .invalidPath .pastScalar => True
  | _ => False

theorem EnumAccessor.ofField?_eq_none {name : String} : ofField? name = none ↔ name ≠ "name" ∧ name ≠ "number" := by
  unfold ofField?
  split <;> simp_all

namespace Walk

variable {w w' : Walk}

theorem go_past_single (hs : steps ≠ []) : w.go (.single v) steps = .error (.invalidPath .pastScalar) := by
  cases steps with
  | nil => contradiction
  | cons step steps => rfl

/-- An accessor has to be the last step. -/
theorem go_past_accessor (hs : steps ≠ []) :
    w.go (.enum n e) (.field name :: steps) = .error (.invalidPath .pastScalar) := by
  cases steps with
  | nil => contradiction
  | cons step steps => rfl

theorem accessor_error (h : accessor n e name = .error d) :
    d = .unknownEnumValue n e.name ∨ d = .invalidPath .pastScalar ∧ EnumAccessor.ofField? name = none := by
  unfold accessor at h
  split at h
  · contradiction
  · split at h
    · contradiction
    · exact .inl (Except.error.inj h).symm
  · next hn => exact .inr ⟨(Except.error.inj h).symm, hn⟩

theorem accessor_past : accessor n e name = .error (.invalidPath .pastScalar) ↔ EnumAccessor.ofField? name = none := by
  constructor
  · intro h
    obtain h | ⟨-, hn⟩ := accessor_error h
    · contradiction
    · exact hn
  · intro hn
    rw [accessor, hn]

/-- Behind an enum value there is only one more step, to its name or to its number. -/
theorem go_past_enum (hs : steps ≠ []) : w.go (.enum n e) steps = .error (.invalidPath .pastScalar) ↔
    steps ≠ [.field "name"] ∧ steps ≠ [.field "number"] := by
  cases steps with
  | nil => contradiction
  | cons step steps =>
    cases steps with
    | cons next steps => simp [go]
    | nil =>
      cases step with
      | index i => simp [go]
      | field name =>
        rw [go, accessor_past, EnumAccessor.ofField?_eq_none]
        simp

theorem finish_not_step (h : w.finish node = .error e) : ¬e.IsStep := by
  unfold finish at h
  split at h
  all_goals
    cases h
    try exact id

/-- A step that cannot be taken stops the walk, whatever follows it. -/
theorem go_step_error (hw : w'.pool = w.pool) (he : e.IsStep) (h : w.go node steps = .error e) (rest : List Step) :
    w'.go node (steps ++ rest) = .error e := by
  induction steps generalizing node with
  | nil =>
    rw [go_nil] at h
    exact absurd he (finish_not_step h)
  | cons step steps ih =>
    cases node with
    | message ty m =>
      cases step with
      | field name =>
        rw [List.cons_append, go, hw]
        rw [go] at h
        cases hx : Node.field w.pool ty m name with
        | error d =>
          rw [hx] at h
          exact h
        | ok next =>
          rw [hx] at h
          exact ih h
      | index i => exact h
    | repeated f vs =>
      cases step with
      | field name => exact h
      | index i =>
        rw [List.cons_append, go, hw]
        rw [go] at h
        cases hx : Node.index w.pool f vs i with
        | error d =>
          rw [hx] at h
          exact h
        | ok next =>
          rw [hx] at h
          exact ih h
    | enum n d =>
      cases step with
      | index i => exact h
      | field name =>
        cases steps with
        | cons next steps => exact h
        | nil =>
          -- The last step is taken for an accessor. With more steps behind it, it is not, and it fails all the same.
          obtain rfl | ⟨rfl, hn⟩ := accessor_error h
          · exact False.elim he
          · cases rest with
            | nil => exact h
            | cons next rest => rfl
    | single v => cases step <;> exact h
    | absent => cases step <;> contradiction

end Walk

namespace Registry

theorem extract_step_error {r : Registry} (he : e.IsStep) (h : r.extract warn b type path = .error e) (warn' : Bool)
    (rest : List Step) : r.extract warn' b type ⟨path.steps ++ rest⟩ = .error e := by
  cases ht : r.message? type with
  | error d =>
    rw [extract_unknown ht] at h ⊢
    exact h
  | ok t =>
    cases hread : t.pool.read? t.definition b with
    | none =>
      rw [extract_of_corrupt ht hread] at h ⊢
      exact h
    | some m =>
      rw [extract_of_read ht hread] at h ⊢
      exact Walk.go_step_error (w := ⟨t.pool, type, path, warn⟩) (by rfl) he h rest

/-- Behind a single value and behind an accessor a path fails with one error, and behind an enum value it does unless
the one step there is an accessor. Where a step cannot be taken, every longer path fails with the same error. -/
theorem paths_end_at_leaves (history : List Request) (b : Bytes) (type : String) (path : Path) (warn : Bool)
    {rest : List Step} (hrest : rest ≠ []) :
    let r := empty.run history
    let past := r.extract warn b type ⟨path.steps ++ rest⟩
    (∀ codec, (Error.invalidPath .pastScalar).message codec = "Invalid path: cannot traverse past a scalar value") ∧
    (∀ v, r.Reaches b type path (.single v) → past = .error (.invalidPath .pastScalar)) ∧
    (∀ before name n e, path.steps = before ++ [.field name] → name = "name" ∨ name = "number" →
      r.Reaches b type ⟨before⟩ (.enum n e) → past = .error (.invalidPath .pastScalar)) ∧
    (∀ n e, r.Reaches b type path (.enum n e) →
      (past = .error (.invalidPath .pastScalar) ↔ rest ≠ [.field "name"] ∧ rest ≠ [.field "number"])) ∧
    ∀ e, e.IsStep → r.extract warn b type path = .error e → past = .error e := by
  intro r past
  refine ⟨fun _ => rfl, ?_, ?_, ?_, ?_⟩
  · intro v h
    obtain ⟨t, -, -, -, hgo⟩ := h.extract
    exact (hgo warn rest).trans (Walk.go_past_single hrest)
  · intro before name n e hsteps _ h
    obtain ⟨t, -, -, -, hgo⟩ := h.extract
    have hpast : past = r.extract warn b type ⟨before ++ .field name :: rest⟩ := by
      simp only [past, hsteps, List.append_assoc, List.singleton_append]
    exact hpast.trans ((hgo warn _).trans (Walk.go_past_accessor hrest))
  · intro n e h
    obtain ⟨t, -, -, -, hgo⟩ := h.extract
    rw [show past = _ from hgo warn rest]
    exact Walk.go_past_enum hrest
  · intro e he h
    exact extract_step_error he h warn rest

def wallsLoad : Request := .load .allow (.memory (FileDecl.writeBundle [Samples.walls]))

theorem color_of_wall_reached :
    ∃ e, (empty.run [wallsLoad]).Reaches [8, 2] "Wall" ⟨[.field "color"]⟩ (.enum 2 e) := by
  obtain ⟨p, hp, h⟩ := (Option.any_eq_true _ _).mp color_reached
  obtain ⟨ty, hty, h⟩ := (Option.any_eq_true _ _).mp h
  obtain ⟨hentry, h⟩ := (Bool.and_eq_true _ _).mp h
  obtain ⟨node, hnode, h⟩ := (Option.any_eq_true _ _).mp h
  cases node with
  | enum n e =>
    obtain rfl : n = 2 := by simpa using ((Bool.and_eq_true _ _).mp h).1
    refine ⟨e, reaches_iff.mpr ?_⟩
    rw [node?, wallsLoad, message?_first hp hty (by simpa using hentry)]
    exact hnode
  | _ => contradiction

/-- The color of a wall is an enum value, whose name is the end of every path. -/
theorem name_of_color_is_last :
    let r := empty.run [wallsLoad]
    (∃ e, r.Reaches [8, 2] "Wall" ⟨[.field "color"]⟩ (.enum 2 e)) ∧
      r.extract false [8, 2] "Wall" ⟨[.field "color", .field "name", .index 0]⟩ =
        .error (.invalidPath .pastScalar) ∧
      r.extract false [8, 2] "Wall" ⟨[.field "color", .field "label"]⟩ = .error (.invalidPath .pastScalar) := by
  intro r
  obtain ⟨e, he⟩ := color_of_wall_reached
  obtain ⟨-, -, hname, -⟩ := paths_end_at_leaves [wallsLoad] [8, 2] "Wall" ⟨[.field "color", .field "name"]⟩ false
    (List.cons_ne_nil (.index 0) [])
  obtain ⟨-, -, -, hvalue, -⟩ := paths_end_at_leaves [wallsLoad] [8, 2] "Wall" ⟨[.field "color"]⟩ false
    (List.cons_ne_nil (.field "label") [])
  refine ⟨⟨e, he⟩, ?_, ?_⟩
  · exact hname [.field "color"] "name" 2 e rfl (.inl rfl) he
  · exact (hvalue 2 e he).mpr (by decide)

end Registry

end WireQuery
