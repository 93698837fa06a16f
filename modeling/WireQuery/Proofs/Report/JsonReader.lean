import Mathlib
import WireQuery.Report.Json

/-!
A reader of JSON texts that accepts nothing else, and keeps every member of an object in its place, also one of a name that
occurred before. The characters make up tokens, and a machine with a stack of what is still open reads these.
-/

namespace WireQuery.Json

/-- What a JSON text says. A number without a fraction and a power of ten is an integer. -/
inductive Tree where
  | null
  | bool (b : Bool)
  | integer (i : Int)
  | real (bits : UInt64)
  | text (s : String)
  | array (items : List Tree)
  | object (members : List (String × Tree))

/-- What is read leaves the same rest when only the value that was read is changed. -/
theorem read_of_map {g : α × List Char → β × List Char} {read : Option (α × List Char)}
    (h : read.map g = some (b, r)) (hg : ∀ x, (g x).2 = x.2) : ∃ a, read = some (a, r) := by
  obtain ⟨⟨a, r'⟩, hread, he⟩ := Option.map_eq_some_iff.mp h
  have hrest := hg (a, r')
  rw [he] at hrest
  obtain rfl : r = r' := hrest
  exact ⟨a, hread⟩

/-- What a character behind a backslash stands for. -/
def escaped? (c : Char) : Option Char :=
  if c = '"' ∨ c = '\\' ∨ c = '/' then some c
  else if c = 'b' then some '\x08'
  else if c = 'f' then some '\x0C'
  else if c = 'n' then some '\n'
  else if c = 'r' then some '\r'
  else if c = 't' then some '\t'
  else none

/-- The number of four hexadecimal digits. -/
def readUnit? : List Char → Option (Nat × List Char)
  | a :: b :: c :: d :: r => do
    let a ← Hex.digitValue? a
    let b ← Hex.digitValue? b
    let c ← Hex.digitValue? c
    let d ← Hex.digitValue? d
    some (16 * (16 * (16 * a + b) + c) + d, r)
  | _ => none

/-- One unit stands for a character, or else two do together. -/
def readUnits? (s : List Char) : Option (Char × List Char) :=
  match readUnit? s with
  | none => none
  | some (n, r) =>
    if n < 0xD800 ∨ 0xE000 ≤ n then some (Char.ofNat n, r)
    else
      match r with
      | '\\' :: 'u' :: r =>
        match readUnit? r with
        | none => none
        | some (k, r) =>
          if n < 0xDC00 ∧ 0xDC00 ≤ k ∧ k < 0xE000 then
            some (Char.ofNat (0x10000 + 0x400 * (n - 0xD800) + (k - 0xDC00)), r)
          else none
      | _ => none

/-- What stands behind a backslash. -/
def readEscape? : List Char → Option (Char × List Char)
  | [] => none
  | c :: r => if c = 'u' then readUnits? r else (escaped? c).map (fun d => (d, r))

theorem readUnit?_length (h : readUnit? s = some (n, r)) : r.length ≤ s.length := by
  unfold readUnit? at h
  split at h
  · simp only [Option.bind_eq_bind, Option.bind_eq_some_iff, Option.some.injEq, Prod.mk.injEq] at h
    obtain ⟨_, _, _, _, _, _, _, _, _, rfl⟩ := h
    simp
    omega
  · contradiction

theorem readUnits?_length (h : readUnits? s = some (c, r)) : r.length ≤ s.length := by
  unfold readUnits? at h
  split at h
  · contradiction
  · next hfirst =>
    have hfirst := readUnit?_length hfirst
    split at h
    · simp only [Option.some.injEq, Prod.mk.injEq] at h
      exact h.2 ▸ hfirst
    · split at h
      · split at h
        · contradiction
        · next hsecond =>
          have hsecond := readUnit?_length hsecond
          split at h
          · simp only [Option.some.injEq, Prod.mk.injEq] at h
            rw [← h.2]
            simp only [List.length_cons] at hfirst
            omega
          · contradiction
      · contradiction

theorem readEscape?_length (h : readEscape? s = some (c, r)) : r.length ≤ s.length := by
  unfold readEscape? at h
  split at h
  · contradiction
  · split at h
    · exact Nat.le_succ_of_le (readUnits?_length h)
    · obtain ⟨_, _, he⟩ := Option.map_eq_some_iff.mp h
      rw [← (Prod.mk.inj he).2]
      exact Nat.le_succ _

/-- Up to the closing quote. Control characters stand in no string. -/
def readText? (s : List Char) : Option (List Char × List Char) :=
  match s with
  | [] => none
  | c :: r =>
    if c = '"' then some ([], r)
    else if c = '\\' then
      match h : readEscape? r with
      | none => none
      | some (d, t) =>
        have := readEscape?_length h
        (readText? t).map (fun (text, t) => (d :: text, t))
    else if c.toNat < 0x20 then none
    else (readText? r).map (fun (text, t) => (c :: text, t))
termination_by s.length

theorem readText?_length (h : readText? s = some (text, r)) : r.length < s.length := by
  fun_induction readText? s generalizing text r with
  | case1 => contradiction
  | case2 t =>
    obtain ⟨-, rfl⟩ := Prod.mk.inj (Option.some.inj h)
    exact Nat.lt_succ_self _
  | case3 => contradiction
  | case4 s d t hescape hle _ ih =>
    obtain ⟨_, ht⟩ := read_of_map h (fun _ => rfl)
    have := ih ht
    simp only [List.length_cons]
    omega
  | case5 => contradiction
  | case6 c s _ _ _ ih =>
    obtain ⟨_, ht⟩ := read_of_map h (fun _ => rfl)
    exact Nat.lt_succ_of_lt (ih ht)

/-- Digits of a whole number; a zero leads no others. -/
def readWhole? (s : List Char) : Option (List Char × List Char) :=
  let digits := s.takeWhile Char.isDigit
  if digits = [] ∨ (digits.head? = some '0' ∧ digits ≠ ['0']) then none
  else some (digits, s.dropWhile Char.isDigit)

/-- A point and at least one digit, or nothing. -/
def readFraction? : List Char → Option (List Char × List Char)
  | '.' :: r =>
    let digits := r.takeWhile Char.isDigit
    if digits = [] then none else some (digits, r.dropWhile Char.isDigit)
  | s => some ([], s)

/-- A power of ten, or nothing. -/
def readPower? : List Char → Option (Option Int × List Char)
  | 'e' :: r | 'E' :: r => (Numeral.readExponent? r).map (fun (e, r) => (some e, r))
  | s => some (none, s)

/-- The double nearest to a decimal number with a sign. -/
def nearest (negative : Bool) (n : Numeral) : UInt64 :=
  UInt64.ofNat (Binary.signed Binary.double negative (n.round Binary.double))

def numberOf (negative : Bool) (whole fraction : List Char) (power : Option Int) : Tree :=
  if fraction = [] ∧ power = none then
    .integer (if negative then -(Decimal.value whole : Int) else Decimal.value whole)
  else .real (nearest negative ⟨Decimal.value (whole ++ fraction), power.getD 0 - fraction.length⟩)

def readMinus : List Char → Bool × List Char
  | '-' :: r => (true, r)
  | s => (false, s)

def readNumber? (s : List Char) : Option (Tree × List Char) :=
  let (negative, s) := readMinus s
  match readWhole? s with
  | none => none
  | some (whole, s) =>
    match readFraction? s with
    | none => none
    | some (fraction, s) => (readPower? s).map (fun (power, s) => (numberOf negative whole fraction power, s))

theorem readMinus_length (s : List Char) : (readMinus s).2.length ≤ s.length := by
  unfold readMinus
  split
  · exact Nat.le_succ _
  · exact Nat.le_refl _

theorem readWhole?_length (h : readWhole? s = some (whole, r)) : r.length < s.length := by
  unfold readWhole? at h
  dsimp only at h
  split at h
  · contradiction
  · next hne =>
    obtain ⟨-, rfl⟩ := Prod.mk.inj (Option.some.inj h)
    have hpos := List.length_pos_of_ne_nil (not_or.mp hne).1
    have hsplit := congrArg List.length (List.takeWhile_append_dropWhile (p := Char.isDigit) (l := s))
    rw [List.length_append] at hsplit
    omega

theorem readFraction?_length (h : readFraction? s = some (fraction, r)) : r.length ≤ s.length := by
  unfold readFraction? at h
  split at h
  · dsimp only at h
    split at h
    · contradiction
    · obtain ⟨-, rfl⟩ := Prod.mk.inj (Option.some.inj h)
      exact Nat.le_succ_of_le (List.length_dropWhile_le ..)
  · obtain ⟨-, rfl⟩ := Prod.mk.inj (Option.some.inj h)
    exact Nat.le_refl _

theorem readExponent?_length (h : Numeral.readExponent? s = some (e, r)) : r.length ≤ s.length := by
  unfold Numeral.readExponent? at h
  dsimp only at h
  split at h
  · contradiction
  · obtain ⟨-, rfl⟩ := Prod.mk.inj (Option.some.inj h)
    exact (List.length_dropWhile_le ..).trans (Decimal.readSign_length s)

theorem readPower?_length (h : readPower? s = some (power, r)) : r.length ≤ s.length := by
  have hexponent {t : List Char} (h : (Numeral.readExponent? t).map (fun (e, r) => (some e, r)) = some (power, r)) :
      r.length ≤ t.length + 1 := by
    obtain ⟨_, hread⟩ := read_of_map h (fun _ => rfl)
    exact Nat.le_succ_of_le (readExponent?_length hread)
  unfold readPower? at h
  split at h
  · exact hexponent h
  · exact hexponent h
  · obtain ⟨-, rfl⟩ := Prod.mk.inj (Option.some.inj h)
    exact Nat.le_refl _

theorem readNumber?_length (h : readNumber? s = some (t, r)) : r.length < s.length := by
  unfold readNumber? at h
  dsimp only at h
  split at h
  · contradiction
  · next hwhole =>
    split at h
    · contradiction
    · next hfraction =>
      obtain ⟨_, hpower⟩ := read_of_map h (fun _ => rfl)
      calc _ ≤ _ := readPower?_length hpower
        _ ≤ _ := readFraction?_length hfraction
        _ < _ := readWhole?_length hwhole
        _ ≤ s.length := readMinus_length s

inductive Token where
  | mark (c : Char)
  | text (s : String)
  /-- A value that is neither a string nor made up of others. -/
  | leaf (t : Tree)

def isBlank (c : Char) : Bool := c = ' ' || c = '\t' || c = '\n' || c = '\r'

def isMark (c : Char) : Bool := c = '{' || c = '}' || c = '[' || c = ']' || c = ',' || c = ':'

def readWord? : List Char → Option (Tree × List Char)
  | 'n' :: 'u' :: 'l' :: 'l' :: r => some (.null, r)
  | 't' :: 'r' :: 'u' :: 'e' :: r => some (.bool true, r)
  | 'f' :: 'a' :: 'l' :: 's' :: 'e' :: r => some (.bool false, r)
  | _ => none

/-- The token that a text without blanks before it begins with. -/
def readToken? : List Char → Option (Token × List Char)
  | [] => none
  | c :: r =>
    if c = '"' then (readText? r).map (fun (s, r) => (.text (String.ofList s), r))
    else if isMark c then some (.mark c, r)
    else if c.isAlpha then (readWord? (c :: r)).map (fun (t, r) => (.leaf t, r))
    else (readNumber? (c :: r)).map (fun (t, r) => (.leaf t, r))

theorem readWord?_length (h : readWord? s = some (t, r)) : r.length < s.length := by
  unfold readWord? at h
  split at h
  all_goals simp only [Option.some.injEq, Prod.mk.injEq, reduceCtorEq] at h
  all_goals
    obtain ⟨-, rfl⟩ := h
    simp only [List.length_cons]
    omega

theorem readToken?_length (h : readToken? s = some (t, r)) : r.length < s.length := by
  unfold readToken? at h
  split at h
  · contradiction
  · split at h
    · obtain ⟨_, hread⟩ := read_of_map h (fun _ => rfl)
      exact Nat.lt_succ_of_lt (readText?_length hread)
    · split at h
      · obtain ⟨-, rfl⟩ := Prod.mk.inj (Option.some.inj h)
        exact Nat.lt_succ_self _
      · split at h
        · obtain ⟨_, hread⟩ := read_of_map h (fun _ => rfl)
          exact readWord?_length hread
        · obtain ⟨_, hread⟩ := read_of_map h (fun _ => rfl)
          exact readNumber?_length hread

def tokens? (s : List Char) : Option (List Token) :=
  match hs : s.dropWhile isBlank with
  | [] => some []
  | c :: t =>
    match ht : readToken? (c :: t) with
    | none => none
    | some (token, r) =>
      have : r.length < s.length :=
        calc r.length < (c :: t).length := readToken?_length ht
          _ ≤ s.length := hs ▸ List.length_dropWhile_le ..
      (tokens? r).map (token :: ·)
termination_by s.length

/-- What a value that is being read stands in: what came before it there, and its name. -/
inductive Frame where
  | array (items : List Tree)
  | object (members : List (String × Tree)) (name : String)

/-- What comes next, inside of the frames that are open. -/
inductive State where
  | value (frames : List Frame)
  /-- Behind `[`. -/
  | firstItem (frames : List Frame)
  /-- Behind an item. -/
  | items (items : List Tree) (frames : List Frame)
  /-- Behind an opening brace. -/
  | firstName (frames : List Frame)
  /-- Behind a comma in an object. -/
  | name (members : List (String × Tree)) (frames : List Frame)
  | colon (members : List (String × Tree)) (name : String) (frames : List Frame)
  /-- Behind a member. -/
  | members (members : List (String × Tree)) (frames : List Frame)
  | done (t : Tree)

/-- A value that was read takes its place in the innermost frame. -/
def put (t : Tree) : List Frame → State
  | [] => .done t
  | .array items :: frames => .items (items ++ [t]) frames
  | .object members name :: frames => .members (members ++ [(name, t)]) frames

def begin? (frames : List Frame) : Token → Option State
  | .leaf t => some (put t frames)
  | .text s => some (put (.text s) frames)
  | .mark '[' => some (.firstItem frames)
  | .mark '{' => some (.firstName frames)
  | _ => none

def step? : State → Token → Option State
  | .value frames, t => begin? frames t
  | .firstItem frames, .mark ']' => some (put (.array []) frames)
  | .firstItem frames, t => begin? (.array [] :: frames) t
  | .items items frames, .mark ',' => some (.value (.array items :: frames))
  | .items items frames, .mark ']' => some (put (.array items) frames)
  | .firstName frames, .mark '}' => some (put (.object []) frames)
  | .firstName frames, .text name => some (.colon [] name frames)
  | .name members frames, .text name => some (.colon members name frames)
  | .colon members name frames, .mark ':' => some (.value (.object members name :: frames))
  | .members members frames, .mark ',' => some (.name members frames)
  | .members members frames, .mark '}' => some (put (.object members) frames)
  | _, _ => none

/-- The tree of a text that is one value. -/
def read? (text : String) : Option Tree := do
  let tokens ← tokens? text.toList
  match ← tokens.foldlM step? (.value []) with
  | .done t => some t
  | _ => none

end WireQuery.Json
