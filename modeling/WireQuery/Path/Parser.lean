import WireQuery.Path.Basic

/-!
Reading a path takes as many whole steps as there are, and refuses a text that goes on after them.
-/

namespace WireQuery

inductive PathError where
  | missingRoot (text : String)
  /-- No step starts at `offset`, counted in bytes, where `rest` begins. -/
  | unexpected (text : String) (offset : Nat) (rest : String)
  deriving DecidableEq, Repr

namespace PathError

def offset : PathError → Nat
  | missingRoot _ => 0
  | unexpected _ offset _ => offset

def message : PathError → String
  | missingRoot text => "Invalid path '" ++ text ++ "': must start with '$'"
  | unexpected text offset rest =>
    "Invalid path '" ++ text ++ "': unexpected '" ++ rest ++ "' at offset " ++ Decimal.natText offset

end PathError

namespace Path

def isNameStart (c : Char) : Bool := c.isAlpha || c == '_'

def isNameChar (c : Char) : Bool := c.isAlphanum || c == '_'

def int64OfInt? (i : Int) : Option Int64 :=
  if -9223372036854775808 ≤ i ∧ i ≤ 9223372036854775807 then some (Int64.ofInt i) else none

def readInteger (s : List Char) : Option (Int64 × List Char) :=
  let (negative, r) := Decimal.readSign s
  let digits := r.takeWhile Char.isDigit
  if digits.isEmpty then none
  else
    let n : Int := Decimal.value digits
    (int64OfInt? (if negative then -n else n)).map (·, r.dropWhile Char.isDigit)

theorem readInteger_length (h : readInteger s = some (i, r)) : r.length ≤ s.length := by
  simp only [readInteger] at h
  split at h
  · simp at h
  · obtain ⟨_, _, he⟩ := Option.map_eq_some_iff.mp h
    have hr : (Decimal.readSign s).2.dropWhile Char.isDigit = r := (Prod.mk.inj he).2
    have := (List.dropWhile_suffix Char.isDigit (l := (Decimal.readSign s).2)).length_le
    rw [hr] at this
    exact Nat.le_trans this (Decimal.readSign_length s)

def readStep : List Char → Option (Step × List Char)
  | '.' :: c :: r =>
    if isNameStart c then
      some (.field (String.ofList (c :: r.takeWhile isNameChar)), r.dropWhile isNameChar)
    else none
  | '[' :: r =>
    match readInteger r with
    | some (i, ']' :: r') => some (.index i, r')
    | _ => none
  | _ => none

/-- A step takes at least one character. -/
theorem readStep_length (h : readStep s = some (step, r)) : r.length < s.length := by
  unfold readStep at h
  split at h
  · split at h
    · next c t _ =>
      simp only [Option.some.injEq, Prod.mk.injEq] at h
      obtain ⟨_, rfl⟩ := h
      have := (List.dropWhile_suffix isNameChar (l := t)).length_le
      simp only [List.length_cons]
      omega
    · simp at h
  · split at h
    · next hi =>
      simp only [Option.some.injEq, Prod.mk.injEq] at h
      obtain ⟨_, rfl⟩ := h
      have := readInteger_length hi
      simp only [List.length_cons] at this ⊢
      omega
    · simp at h
  · simp at h

/-- Takes steps while there is one. -/
def readSteps (s : List Char) : List Step × List Char :=
  match h : readStep s with
  | none => ([], s)
  | some (step, r) =>
    have := readStep_length h
    let (steps, rest) := readSteps r
    (step :: steps, rest)
termination_by s.length

def parse (text : String) : Except PathError Path :=
  match text.toList with
  | '$' :: r =>
    match readSteps r with
    | (steps, []) => .ok ⟨steps⟩
    | (_, rest) =>
      let rest := String.ofList rest
      .error (.unexpected text (text.utf8ByteSize - rest.utf8ByteSize) rest)
  | _ => .error (.missingRoot text)

end Path

end WireQuery
