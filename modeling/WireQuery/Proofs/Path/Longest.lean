import WireQuery.Proofs.Path.Grammar

/-!
Where a text stops being a path. Reading goes as far as any path that the text starts with, so that the error stands
right behind the longest of them.
-/

namespace WireQuery.Path

variable {text : String} {steps : List Step} {texts : List (List Char)}

/-- The parts of a text around an offset, which is counted in bytes and lies between two characters. -/
structure Splits (text : String) (offset : Nat) (before after : String) : Prop where
  whole : text = before ++ after
  size : before.utf8ByteSize = offset

/-- Nothing but the empty text lies between two starts of a text that have the same size. -/
theorem eq_of_same_size {mid : List Char} {a b : String} (h : b.toList = a.toList ++ mid)
    (hs : a.utf8ByteSize = b.utf8ByteSize) : a = b := by
  have hb : b = a ++ String.ofList mid := by
    rw [← String.toList_inj, h, String.toList_append, String.toList_ofList]
  have hmid : (String.ofList mid).utf8ByteSize = 0 := by
    rw [hb, String.utf8ByteSize_append] at hs
    omega
  rw [hb, String.utf8ByteSize_eq_zero_iff.mp hmid, String.append_empty]

/-- An offset splits a text in one way. -/
theorem Splits.unique (h : Splits text offset before after) (h' : Splits text offset before' after') :
    before = before' ∧ after = after' := by
  have hsize : before.utf8ByteSize = before'.utf8ByteSize := h.size.trans h'.size.symm
  have hwhole : before.toList ++ after.toList = before'.toList ++ after'.toList := by
    rw [← String.toList_append, ← String.toList_append, ← h.whole, h'.whole]
  have hb : before = before' := by
    rcases List.append_eq_append_iff.mp hwhole with ⟨mid, hm, -⟩ | ⟨mid, hm, -⟩
    · exact eq_of_same_size hm hsize
    · exact (eq_of_same_size hm hsize.symm).symm
  subst hb
  exact ⟨rfl, (String.append_right_inj before).mp (h.whole.symm.trans h'.whole)⟩

/-- Whatever follows the text of a step, what is read there as a step is no shorter. -/
theorem readStep_past (h : StepText step t) (r : List Char) :
    ∃ step' r', readStep (t ++ r) = some (step', r') ∧ r' <:+ r := by
  cases h with
  | field hname => exact ⟨_, _, readStep_name hname r, List.dropWhile_suffix isNameChar⟩
  | index hs => exact ⟨_, _, readStep_numeral hs r, List.suffix_rfl⟩

theorem readSteps_suffix (s : List Char) : (readSteps s).2 <:+ s := by
  obtain ⟨texts, -, hs⟩ := stepTexts_of_readSteps s
  exact ⟨_, hs.symm⟩

/-- Whatever follows the texts of steps, what is read there as steps is no shorter. -/
theorem readSteps_past (h : List.Forall₂ StepText steps texts) (r : List Char) :
    (readSteps (texts.flatten ++ r)).2 <:+ r := by
  induction h with
  | nil => exact readSteps_suffix r
  | @cons step t _ texts ht hts ih =>
    rw [List.flatten_cons, List.append_assoc]
    cases hts with
    | nil =>
      -- The last name may go on into what follows.
      obtain ⟨step', r', hread, hr⟩ := readStep_past ht r
      rw [List.flatten_nil, List.nil_append, readSteps_of_readStep hread]
      exact (readSteps_suffix r').trans hr
    | @cons _ u _ us hu _ =>
      have hends : Ends ((u :: us).flatten ++ r) := by
        rw [List.flatten_cons, List.append_assoc]
        exact hu.ends _
      rw [readSteps_of_readStep (readStep_stepText ht hends)]
      exact ih

theorem unexpected_inv (h : parse text = .error (.unexpected path offset rest)) :
    ∃ r, text.toList = '$' :: r ∧ (readSteps r).2 ≠ [] ∧ path = text ∧ rest = String.ofList (readSteps r).2 ∧
      offset = text.utf8ByteSize - rest.utf8ByteSize := by
  unfold parse at h
  split at h
  · next r hr =>
    split at h
    · contradiction
    · next hleft hread =>
      cases h
      refine ⟨r, hr, ?_⟩
      rw [hread]
      exact ⟨hleft, rfl, rfl, rfl⟩
  · cases h

/-- What is left unread is no longer than what stands behind a path that the text starts with. -/
theorem rest_le_of_accepted (ht : text.toList = '$' :: r) (h : text = before ++ after) (hp : parse before = .ok p) :
    (String.ofList (readSteps r).2).utf8ByteSize ≤ after.utf8ByteSize := by
  obtain ⟨texts, htexts, hb⟩ := written_of_parse hp
  have hr : r = texts.flatten ++ after.toList := by
    rw [h, String.toList_append, hb, List.cons_append] at ht
    exact (List.cons.inj ht).2.symm
  obtain ⟨gap, hgap⟩ := readSteps_past htexts after.toList
  rw [← hr] at hgap
  have hafter : after = String.ofList gap ++ String.ofList (readSteps r).2 := by
    rw [← String.ofList_append, hgap, String.ofList_toList]
  rw [hafter, String.utf8ByteSize_append]
  omega

/-- Before an error stands a path, and no longer one. -/
theorem longest_of_unexpected (h : parse text = .error (.unexpected path offset rest)) :
    ∃ before, Splits text offset before rest ∧ 0 < offset ∧ (∃ p, parse before = .ok p) ∧
      ∀ longer more, text = longer ++ more → offset < longer.utf8ByteSize → ∀ p, parse longer ≠ .ok p := by
  obtain ⟨r, hr, -, -, rfl, rfl⟩ := unexpected_inv h
  obtain ⟨texts, htexts, hs⟩ := stepTexts_of_readSteps r
  have hwhole : text = String.ofList ('$' :: texts.flatten) ++ String.ofList (readSteps r).2 := by
    rw [← String.ofList_append, List.cons_append, ← hs, ← hr, String.ofList_toList]
  have hsize := congrArg String.utf8ByteSize hwhole
  rw [String.utf8ByteSize_append] at hsize
  have hsplits : Splits text (text.utf8ByteSize - (String.ofList (readSteps r).2).utf8ByteSize)
      (String.ofList ('$' :: texts.flatten)) (String.ofList (readSteps r).2) := ⟨hwhole, by omega⟩
  refine ⟨_, hsplits, ?_, ⟨_, parse_of_written ⟨texts, htexts, String.toList_ofList⟩⟩, ?_⟩
  · rw [← hsplits.size, Nat.pos_iff_ne_zero]
    simp
  · intro longer more hlonger hlt p hp
    have hle := rest_le_of_accepted hr hlonger hp
    have hmore := congrArg String.utf8ByteSize hlonger
    rw [String.utf8ByteSize_append] at hmore
    omega

/-- A text that starts with the root is refused at an offset exactly if the text before it is a path, no longer start
of the text is one, and something is left. The error carries the whole text, the offset, and what is left from there. -/
theorem unexpected_behind_longest_path (text path : String) (offset : Nat) (rest : String) :
    parse text = .error (.unexpected path offset rest) ↔
      path = text ∧ rest ≠ "" ∧ ∃ before, Splits text offset before rest ∧ 0 < offset ∧ (∃ p, parse before = .ok p) ∧
        ∀ longer more, text = longer ++ more → offset < longer.utf8ByteSize → ∀ p, parse longer ≠ .ok p := by
  constructor
  · intro h
    obtain ⟨r, -, hleft, hpath, hrest, -⟩ := unexpected_inv h
    refine ⟨hpath, ?_, longest_of_unexpected h⟩
    rw [hrest]
    simpa using hleft
  · rintro ⟨rfl, hrest, before, hsplits, -, ⟨p, hp⟩, hlongest⟩
    have hroot : path.toList.head? = some '$' := by
      obtain ⟨texts, -, hb⟩ := written_of_parse hp
      rw [hsplits.whole, String.toList_append, hb]
      rfl
    cases hparse : parse path with
    | ok q =>
      have hsize := congrArg String.utf8ByteSize hsplits.whole
      have hleft := mt String.utf8ByteSize_eq_zero_iff.mp hrest
      rw [String.utf8ByteSize_append, hsplits.size] at hsize
      exact absurd hparse (hlongest path "" (by simp) (by omega) q)
    | error e =>
      obtain ⟨offset', rest', rfl⟩ := parse_error hparse hroot
      obtain ⟨before', hsplits', -, ⟨p', hp'⟩, hlongest'⟩ := longest_of_unexpected hparse
      have hle : ¬offset' < before.utf8ByteSize := fun h => hlongest' before rest hsplits.whole h p hp
      have hge : ¬offset < before'.utf8ByteSize := fun h => hlongest before' rest' hsplits'.whole h p' hp'
      rw [hsplits.size] at hle
      rw [hsplits'.size] at hge
      obtain rfl : offset = offset' := by omega
      rw [(hsplits.unique hsplits').2]

/-- A step that is begun and not ended is left as a whole. -/
example : parse "$.a[12é" = .error (.unexpected "$.a[12é" 3 "[12é") := by cbv

end WireQuery.Path
