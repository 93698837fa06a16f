import Mathlib
import WireQuery.Path.Parser

namespace WireQuery.Path

variable {text : String} {steps : List Step} {texts : List (List Char)}

def IsLetter (c : Char) : Prop := ('A' ≤ c ∧ c ≤ 'Z') ∨ ('a' ≤ c ∧ c ≤ 'z') ∨ c = '_'

instance : DecidablePred IsLetter := fun c =>
  inferInstanceAs (Decidable (('A' ≤ c ∧ c ≤ 'Z') ∨ ('a' ≤ c ∧ c ≤ 'z') ∨ c = '_'))

def IsDigit (c : Char) : Prop := '0' ≤ c ∧ c ≤ '9'

instance : DecidablePred IsDigit := fun c => inferInstanceAs (Decidable ('0' ≤ c ∧ c ≤ '9'))

def IsIdentifier : List Char → Prop
  | [] => False
  | c :: r => IsLetter c ∧ ∀ d ∈ r, IsLetter d ∨ IsDigit d

/-- A sign that may stand before digits, and whether it is negative. -/
inductive Sign : List Char → Bool → Prop
  | none : Sign [] false
  | plus : Sign ['+'] false
  | minus : Sign ['-'] true

/-- The last digit counts ones. -/
def decimal (ds : List Char) : Nat := Nat.ofDigits 10 (ds.reverse.map (fun c => c.toNat - '0'.toNat))

def signed (negative : Bool) (ds : List Char) : Int := if negative then -(decimal ds) else decimal ds

/-- A sign or none, and at least one digit; zeros may lead. -/
def Numeral (s : List Char) (z : Int) : Prop :=
  ∃ sign negative ds, Sign sign negative ∧ ds ≠ [] ∧ (∀ d ∈ ds, IsDigit d) ∧ s = sign ++ ds ∧ z = signed negative ds

inductive StepText : Step → List Char → Prop
  | field (h : IsIdentifier name.toList) : StepText (.field name) ('.' :: name.toList)
  | index {i : Int64} (h : Numeral s i.toInt) : StepText (.index i) ('[' :: (s ++ [']']))

/-- The root, and one text for each step. -/
def Written (steps : List Step) (text : String) : Prop :=
  ∃ texts, List.Forall₂ StepText steps texts ∧ text.toList = '$' :: texts.flatten

theorem isDigit_iff {c : Char} : c.isDigit = true ↔ IsDigit c := by
  simp [Char.isDigit, IsDigit, Char.le_def]

theorem isNameStart_iff {c : Char} : isNameStart c = true ↔ IsLetter c := by
  simp [isNameStart, Char.isAlpha, Char.isUpper, Char.isLower, IsLetter, Char.le_def, or_assoc]

theorem isNameChar_iff {c : Char} : isNameChar c = true ↔ IsLetter c ∨ IsDigit c := by
  have h : isNameChar c = (isNameStart c || c.isDigit) := by
    simp [isNameChar, isNameStart, Char.isAlphanum, Bool.or_assoc, Bool.or_comm c.isDigit]
  rw [h, Bool.or_eq_true, isNameStart_iff, isDigit_iff]

/-- A run of characters of a class goes as far as the next character outside it. -/
theorem run_of_all (cls : Char → Bool) {xs r : List Char} (hx : ∀ x ∈ xs, cls x = true)
    (hr : ∀ c ∈ r.head?, cls c = false) : (xs ++ r).takeWhile cls = xs ∧ (xs ++ r).dropWhile cls = r := by
  rw [List.takeWhile_append_of_pos hx, List.dropWhile_append_of_pos hx]
  cases r with
  | nil => simp
  | cons c r => simp [hr c rfl]

theorem value_eq_decimal (ds : List Char) : Decimal.value ds = decimal ds := by
  induction ds using List.reverseRecOn with
  | nil => rfl
  | append_singleton ds c ih =>
    rw [Decimal.value_append_digit, ih]
    simp [decimal, Nat.ofDigits_cons, Nat.add_comm]

/-- A number is an index if it fits sixty-four bits with its sign. -/
theorem int64OfInt?_iff {i : Int64} {z : Int} : int64OfInt? z = some i ↔ i.toInt = z := by
  unfold int64OfInt?
  constructor
  · intro h
    split at h
    · next hz =>
      rw [← Option.some.inj h]
      exact Int64.toInt_ofInt_of_le (by simpa using hz.1) (by omega)
    · contradiction
  · rintro rfl
    have hl := i.le_toInt
    have hu := i.toInt_lt
    rw [if_pos (by omega), Int64.ofInt_toInt]

theorem sign_of_readSign (s : List Char) :
    ∃ sign, Sign sign (Decimal.readSign s).1 ∧ s = sign ++ (Decimal.readSign s).2 := by
  unfold Decimal.readSign
  split
  · exact ⟨['+'], .plus, rfl⟩
  · exact ⟨['-'], .minus, rfl⟩
  · exact ⟨[], .none, rfl⟩

theorem readSign_of_sign (h : Sign sign negative) (hd : IsDigit d) (r : List Char) :
    Decimal.readSign (sign ++ d :: r) = (negative, d :: r) := by
  cases h with
  | none =>
    have hplus : d ≠ '+' := by
      rintro rfl
      exact absurd hd (by decide)
    have hminus : d ≠ '-' := by
      rintro rfl
      exact absurd hd (by decide)
    simp [Decimal.readSign, hplus, hminus]
  | plus => rfl
  | minus => rfl

theorem numeral_of_readInteger (h : readInteger s = some (i, r)) : ∃ t, Numeral t i.toInt ∧ s = t ++ r := by
  obtain ⟨sign, hsign, hs⟩ := sign_of_readSign s
  simp only [readInteger] at h
  split at h
  · contradiction
  · next hne =>
    obtain ⟨j, hj, he⟩ := Option.map_eq_some_iff.mp h
    obtain ⟨rfl, rfl⟩ := Prod.mk.inj he
    have hvalue := int64OfInt?_iff.mp hj
    rw [value_eq_decimal] at hvalue
    refine ⟨sign ++ (Decimal.readSign s).2.takeWhile Char.isDigit, ⟨sign, _, _, hsign, ?_, ?_, rfl, hvalue⟩, ?_⟩
    · simpa using hne
    · intro d hd
      exact isDigit_iff.mp (List.mem_takeWhile_imp hd)
    · rw [List.append_assoc, List.takeWhile_append_dropWhile]
      exact hs

/-- A number is read whole where no digit follows it. -/
theorem readInteger_numeral (h : Numeral t i.toInt) (hr : ∀ c ∈ r.head?, ¬IsDigit c) :
    readInteger (t ++ r) = some (i, r) := by
  obtain ⟨sign, negative, ds, hsign, hne, hd, rfl, hi⟩ := h
  obtain ⟨d, ds, rfl⟩ := List.exists_cons_of_ne_nil hne
  have hs := readSign_of_sign hsign (hd d List.mem_cons_self) (ds ++ r)
  obtain ⟨htake, hdrop⟩ := run_of_all Char.isDigit (fun c hc => isDigit_iff.mpr (hd c hc))
    (fun c hc => by simpa using mt isDigit_iff.mp (hr c hc))
  have hvalue := int64OfInt?_iff.mpr hi
  rw [signed] at hvalue
  rw [List.cons_append] at htake hdrop
  simp [readInteger, hs, htake, hdrop, value_eq_decimal, hvalue]

theorem stepText_of_readStep (h : readStep s = some (step, r)) : ∃ t, StepText step t ∧ s = t ++ r := by
  unfold readStep at h
  split at h
  · next c q =>
    split at h
    · next hc =>
      obtain ⟨rfl, rfl⟩ := Prod.mk.inj (Option.some.inj h)
      have hname : IsIdentifier (String.ofList (c :: q.takeWhile isNameChar)).toList := by
        rw [String.toList_ofList]
        exact ⟨isNameStart_iff.mp hc, fun d hd => isNameChar_iff.mp (List.mem_takeWhile_imp hd)⟩
      refine ⟨_, .field hname, ?_⟩
      simp [List.takeWhile_append_dropWhile]
    · contradiction
  · next q =>
    split at h
    · next i q' hi =>
      obtain ⟨rfl, rfl⟩ := Prod.mk.inj (Option.some.inj h)
      obtain ⟨t, ht, rfl⟩ := numeral_of_readInteger hi
      exact ⟨_, .index ht, by simp⟩
    · contradiction
  · contradiction

/-- A name ends at the end of the text, and before a step. -/
def Ends (r : List Char) : Prop := ∀ c ∈ r.head?, c = '.' ∨ c = '['

theorem StepText.ends (h : StepText step t) (r : List Char) : Ends (t ++ r) := by
  cases h with
  | field _ => simp [Ends]
  | index _ => simp [Ends]

theorem ends_flatten (h : List.Forall₂ StepText steps texts) : Ends texts.flatten := by
  cases h with
  | nil => simp [Ends]
  | cons ht _ => exact ht.ends _

/-- A name takes all that could belong to it. -/
theorem readStep_name {name : String} (h : IsIdentifier name.toList) (r : List Char) :
    readStep ('.' :: (name.toList ++ r)) =
      some (.field (String.ofList (name.toList ++ r.takeWhile isNameChar)), r.dropWhile isNameChar) := by
  cases hn : name.toList with
  | nil =>
    rw [hn] at h
    exact False.elim h
  | cons c q =>
    rw [hn] at h
    have hq : ∀ d ∈ q, isNameChar d = true := fun d hd => isNameChar_iff.mpr (h.2 d hd)
    rw [List.cons_append, readStep, if_pos (isNameStart_iff.mpr h.1), List.takeWhile_append_of_pos hq,
      List.dropWhile_append_of_pos hq, List.cons_append]

theorem readStep_numeral {i : Int64} (h : Numeral s i.toInt) (r : List Char) :
    readStep ('[' :: (s ++ [']'] ++ r)) = some (.index i, r) := by
  have hread : readInteger (s ++ ']' :: r) = some (i, ']' :: r) := by
    apply readInteger_numeral h
    intro c hc
    cases hc
    decide
  simp [readStep, hread]

theorem readStep_stepText (h : StepText step t) (hr : Ends r) : readStep (t ++ r) = some (step, r) := by
  cases h with
  | index hs => exact readStep_numeral hs r
  | field hname =>
    have hnext : ∀ d ∈ r.head?, isNameChar d = false := by
      intro d hd
      rcases hr d hd with rfl | rfl
      · decide
      · decide
    obtain ⟨htake, hdrop⟩ := run_of_all isNameChar (List.forall_mem_nil _) hnext
    rw [List.nil_append] at htake hdrop
    rw [List.cons_append, readStep_name hname, htake, hdrop, List.append_nil, String.ofList_toList]

/-- What is taken as steps is written for them. -/
theorem stepTexts_of_readSteps (s : List Char) :
    ∃ texts, List.Forall₂ StepText (readSteps s).1 texts ∧ s = texts.flatten ++ (readSteps s).2 := by
  fun_induction readSteps s with
  | case1 s hs => exact ⟨[], .nil, rfl⟩
  | case2 s step r hs _ steps rest hrest ih =>
    obtain ⟨t, ht, rfl⟩ := stepText_of_readStep hs
    rw [hrest] at ih
    obtain ⟨texts, htexts, rfl⟩ := ih
    exact ⟨t :: texts, .cons ht htexts, by simp⟩

theorem readSteps_of_readStep (h : readStep s = some (step, r)) :
    readSteps s = (step :: (readSteps r).1, (readSteps r).2) := by
  rw [readSteps]
  split
  · next hnone => simp [h] at hnone
  · next hsome =>
    obtain ⟨rfl, rfl⟩ := Prod.mk.inj (Option.some.inj (hsome.symm.trans h))
    rfl

theorem readSteps_stepTexts (h : List.Forall₂ StepText steps texts) : readSteps texts.flatten = (steps, []) := by
  induction h with
  | nil =>
    rw [List.flatten_nil, readSteps]
    rfl
  | cons ht hts ih =>
    have hstep := readStep_stepText ht (ends_flatten hts)
    rw [List.flatten_cons, readSteps_of_readStep hstep, ih]

theorem written_of_parse (h : parse text = .ok p) : Written p.steps text := by
  unfold parse at h
  split at h
  · next r hr =>
    obtain ⟨texts, htexts, hs⟩ := stepTexts_of_readSteps r
    split at h
    · next hread =>
      rw [hread] at htexts hs
      cases h
      exact ⟨texts, htexts, by simpa [hr] using hs⟩
    · contradiction
  · contradiction

theorem parse_of_written (h : Written steps text) : parse text = .ok ⟨steps⟩ := by
  obtain ⟨texts, htexts, ht⟩ := h
  simp [parse, ht, readSteps_stepTexts htexts]

theorem parse_missingRoot : parse text = .error (.missingRoot text) ↔ text.toList.head? ≠ some '$' := by
  unfold parse
  split
  · next r hr =>
    split
    · simp [hr]
    · simp [hr]
  · next hr =>
    cases ht : text.toList with
    | nil => simp
    | cons c r =>
      have hc : c ≠ '$' := by
        rintro rfl
        exact hr r ht
      simp [hc]

theorem parse_error (h : parse text = .error e) (hr : text.toList.head? = some '$') :
    ∃ offset rest, e = .unexpected text offset rest := by
  unfold parse at h
  split at h
  · split at h
    · contradiction
    · cases h
      exact ⟨_, _, rfl⟩
  · next hn =>
    obtain ⟨r, ht⟩ := List.head?_eq_some_iff.mp hr
    exact absurd ht (hn r)

/-- Reading accepts exactly what the grammar writes, and finds the steps that it is written for, which no other list
of steps is. Any other text is refused: for want of its root where it does not start with it, else for what stands
behind the steps that can be taken. -/
theorem parse_accepts_grammar (text : String) (steps : List Step) :
    (parse text = .ok ⟨steps⟩ ↔ Written steps text) ∧
    (Written steps text → ∀ others, Written others text → others = steps) ∧
    (parse text = .error (.missingRoot text) ↔ text.toList.head? ≠ some '$') ∧
    ((∃ offset rest, parse text = .error (.unexpected text offset rest)) ↔
      text.toList.head? = some '$' ∧ ∀ others, ¬Written others text) := by
  refine ⟨⟨written_of_parse, parse_of_written⟩, ?_, parse_missingRoot, ?_, ?_⟩
  · intro hw others ho
    have he := (parse_of_written ho).symm.trans (parse_of_written hw)
    cases he
    rfl
  · rintro ⟨offset, rest, he⟩
    refine ⟨?_, ?_⟩
    · by_contra hr
      have hm := he.symm.trans (parse_missingRoot.mpr hr)
      simp at hm
    · intro others ho
      rw [parse_of_written ho] at he
      contradiction
  · rintro ⟨hr, hn⟩
    cases hp : parse text with
    | ok p => exact absurd (written_of_parse hp) (hn p.steps)
    | error e =>
      obtain ⟨offset, rest, rfl⟩ := parse_error hp hr
      exact ⟨offset, rest, rfl⟩

example : parse "$.x[+007]" = .ok ⟨[.field "x", .index 7]⟩ := by cbv

end WireQuery.Path
