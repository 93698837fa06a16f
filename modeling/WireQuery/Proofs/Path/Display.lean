import WireQuery.Proofs.Path.Grammar

namespace WireQuery.Path

variable {text : String} {steps : List Step}

/-- A path whose names could be read. -/
def WellFormed (p : Path) : Prop := ∀ name, .field name ∈ p.steps → IsIdentifier name.toList

theorem numeral_intChars (z : Int) : Numeral (Decimal.intChars z) z := by
  have hdigits (n : Nat) : ∀ d ∈ Decimal.natChars n, IsDigit d := fun d hd =>
    isDigit_iff.mp (Nat.isDigit_of_mem_toDigits (by decide) (by decide) hd)
  have hvalue (n : Nat) : decimal (Decimal.natChars n) = n := by
    rw [← value_eq_decimal, Decimal.value_natChars]
  cases z with
  | ofNat n => exact ⟨[], false, Decimal.natChars n, .none, Nat.toDigits_ne_nil, hdigits n, rfl, by simp [signed, hvalue]⟩
  | negSucc n =>
    refine ⟨['-'], true, Decimal.natChars (n + 1), .minus, Nat.toDigits_ne_nil, hdigits _, rfl, ?_⟩
    simp [signed, hvalue, Int.negSucc_eq]

theorem stepText_chars {step : Step} (h : ∀ name, step = .field name → IsIdentifier name.toList) :
    StepText step step.chars := by
  cases step with
  | field name => exact .field (h name rfl)
  | index i => exact .index (numeral_intChars i.toInt)

/-- The text of a path is one that its steps are written as. -/
theorem written_text {p : Path} (h : p.WellFormed) : Written p.steps p.text := by
  refine ⟨p.steps.map Step.chars, ?_, ?_⟩
  · rw [List.forall₂_map_right_iff, List.forall₂_same]
    intro step hs
    exact stepText_chars (fun name he => h name (he ▸ hs))
  · rw [text, String.toList_ofList, chars, List.flatMap_def]

theorem wellFormed_of_written (h : Written steps text) : (⟨steps⟩ : Path).WellFormed := by
  obtain ⟨texts, htexts, -⟩ := h
  intro name hm
  dsimp only at hm
  induction htexts with
  | nil => contradiction
  | cons ht _ ih =>
    rcases List.mem_cons.mp hm with rfl | hm
    · cases ht with
      | field h => exact h
    · exact ih hm

theorem parse_text {p : Path} (h : p.WellFormed) : parse p.text = .ok p := parse_of_written (written_text h)

theorem wellFormed_of_parse {p : Path} (h : parse text = .ok p) : p.WellFormed :=
  wellFormed_of_written (written_of_parse h)

/-- A path comes back from its text exactly if all its names are identifiers, whatever its indices. All paths that are
read are such, so that reading, writing and reading again changes nothing, and no two of them share a text. -/
theorem text_round_trips :
    (∀ p : Path, parse p.text = .ok p ↔ ∀ name, .field name ∈ p.steps → IsIdentifier name.toList) ∧
    (∀ s p, parse s = .ok p → parse p.text = .ok p) ∧
    ∀ s t p q, parse s = .ok p → parse t = .ok q → p.text = q.text → p = q := by
  have hback (s p) (h : parse s = .ok p) : parse p.text = .ok p := parse_text (wellFormed_of_parse h)
  refine ⟨fun p => ⟨wellFormed_of_parse, parse_text⟩, hback, ?_⟩
  intro s t p q hp hq he
  have hsame := (hback s p hp).symm.trans (he ▸ hback t q hq)
  exact Except.ok.inj hsame

/-- A name that is no identifier may be read as several steps. -/
example : parse (root.field "a.b").text = .ok ((root.field "a").field "b") := by cbv

end WireQuery.Path
