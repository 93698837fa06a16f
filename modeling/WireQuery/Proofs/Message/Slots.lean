import WireQuery.Message.Basic

namespace WireQuery

namespace Message

section Slots

variable {f : FieldDef} {v w : Value} {slots : List (FieldDef × Value)} {x : FieldDef × Value}

theorem eq_or_mem_of_putSlot (h : x ∈ putSlot f v slots) : x = (f, v) ∨ x ∈ slots := by
  induction slots with
  | nil => exact .inl (List.mem_singleton.mp h)
  | cons s slots ih =>
    obtain ⟨g, u⟩ := s
    simp only [putSlot] at h
    split at h
    · exact List.mem_cons.mp h
    · split at h
      · rcases List.mem_cons.mp h with he | h
        · exact .inl he
        · exact .inr (List.mem_cons_of_mem _ h)
      · rcases List.mem_cons.mp h with rfl | h
        · exact .inr List.mem_cons_self
        · rcases ih h with he | h
          · exact .inl he
          · exact .inr (List.mem_cons_of_mem _ h)

/-- Slots by ascending number, each number once. -/
abbrev Ascending (slots : List (FieldDef × Value)) : Prop := slots.Pairwise (fun a b => a.1.number < b.1.number)

theorem ascending_putSlot (h : Ascending slots) : Ascending (putSlot f v slots) := by
  induction slots with
  | nil => exact List.pairwise_singleton _ _
  | cons s slots ih =>
    obtain ⟨g, u⟩ := s
    obtain ⟨hg, hs⟩ := List.pairwise_cons.mp h
    simp only [putSlot]
    split
    · next hlt =>
      refine List.pairwise_cons.mpr ⟨?_, h⟩
      intro y hy
      rcases List.mem_cons.mp hy with rfl | hy
      · exact hlt
      · exact Nat.lt_trans hlt (hg y hy)
    · split
      · next he =>
        refine List.pairwise_cons.mpr ⟨?_, hs⟩
        intro y hy
        rw [he]
        exact hg y hy
      · refine List.pairwise_cons.mpr ⟨?_, ih hs⟩
        intro y hy
        rcases eq_or_mem_of_putSlot hy with rfl | hy
        · dsimp only
          omega
        · exact hg y hy

/-- Nothing else stays under the number of a slot that is put. -/
theorem number_ne_of_putSlot (h : Ascending slots) (hx : x ∈ putSlot f v slots) :
    x = (f, v) ∨ x ∈ slots ∧ x.1.number ≠ f.number := by
  induction slots with
  | nil => exact .inl (List.mem_singleton.mp hx)
  | cons s slots ih =>
    obtain ⟨g, u⟩ := s
    obtain ⟨hg, hs⟩ := List.pairwise_cons.mp h
    simp only [putSlot] at hx
    split at hx
    · next hlt =>
      rcases List.mem_cons.mp hx with he | hx
      · exact .inl he
      · refine .inr ⟨hx, ?_⟩
        rcases List.mem_cons.mp hx with rfl | hx
        · dsimp only
          omega
        · have := hg x hx
          dsimp only at this
          omega
    · split at hx
      · rcases List.mem_cons.mp hx with he | hx
        · exact .inl he
        · have := hg x hx
          dsimp only at this
          exact .inr ⟨List.mem_cons_of_mem _ hx, by omega⟩
      · rcases List.mem_cons.mp hx with rfl | hx
        · exact .inr ⟨List.mem_cons_self, by dsimp only; omega⟩
        · rcases ih hs hx with he | ⟨hx, hn⟩
          · exact .inl he
          · exact .inr ⟨List.mem_cons_of_mem _ hx, hn⟩

theorem putSlot_putSlot : putSlot f w (putSlot f v slots) = putSlot f w slots := by
  induction slots with
  | nil => simp [putSlot]
  | cons s slots ih =>
    obtain ⟨g, u⟩ := s
    simp only [putSlot]
    split
    · simp [putSlot]
    · split
      · simp [putSlot]
      · simp only [putSlot]
        rw [if_neg ‹_›, if_neg ‹_›, ih]

theorem putSlot_last (h : ∀ s ∈ slots, s.1.number < f.number) : putSlot f v slots = slots ++ [(f, v)] := by
  induction slots with
  | nil => rfl
  | cons s slots ih =>
    obtain ⟨g, u⟩ := s
    have hg := h (g, u) List.mem_cons_self
    dsimp only at hg
    rw [putSlot, if_neg (by omega), if_neg (by omega), ih (fun s hs => h s (List.mem_cons_of_mem _ hs))]
    rfl

theorem putSlot_between (h : ∀ s ∈ before, s.1.number < f.number) :
    putSlot f v (before ++ (f, u) :: after) = before ++ (f, v) :: after := by
  induction before with
  | nil => simp [putSlot]
  | cons s before ih =>
    obtain ⟨g, t⟩ := s
    have hg := h (g, t) List.mem_cons_self
    dsimp only at hg
    rw [List.cons_append, putSlot, if_neg (by omega), if_neg (by omega),
      ih (fun s hs => h s (List.mem_cons_of_mem _ hs))]
    rfl

theorem putSlot_fields (h : Ascending slots) (hf : f ∈ slots.map (·.1)) :
    (putSlot f v slots).map (·.1) = slots.map (·.1) := by
  obtain ⟨⟨g, u⟩, hm, rfl⟩ := List.mem_map.mp hf
  obtain ⟨before, after, rfl⟩ := List.append_of_mem hm
  have hb := (List.pairwise_append.mp h).2.2
  rw [putSlot_between (fun s hs => hb s hs _ List.mem_cons_self)]
  simp

theorem slotIn?_eq_none (h : ∀ s ∈ slots, s.1.number ≠ n) : slotIn? n slots = none := by
  induction slots with
  | nil => rfl
  | cons s slots ih =>
    obtain ⟨g, u⟩ := s
    rw [slotIn?, if_neg (h (g, u) List.mem_cons_self)]
    exact ih (fun s hs => h s (List.mem_cons_of_mem _ hs))

theorem mem_of_slotIn? (h : slotIn? n slots = some v) : ∃ f, (f, v) ∈ slots ∧ f.number = n := by
  induction slots with
  | nil => simp [slotIn?] at h
  | cons s slots ih =>
    obtain ⟨g, u⟩ := s
    rw [slotIn?] at h
    split at h
    · next hn =>
      cases h
      exact ⟨g, List.mem_cons_self, hn⟩
    · obtain ⟨f, hf, hn⟩ := ih h
      exact ⟨f, List.mem_cons_of_mem _ hf, hn⟩

theorem slotIn?_of_mem (h : Ascending slots) (hm : (f, v) ∈ slots) : slotIn? f.number slots = some v := by
  induction slots with
  | nil => contradiction
  | cons s slots ih =>
    obtain ⟨g, u⟩ := s
    obtain ⟨hg, hs⟩ := List.pairwise_cons.mp h
    rcases List.mem_cons.mp hm with he | hm
    · cases he
      simp [slotIn?]
    · have hlt := hg _ hm
      dsimp only at hlt
      rw [slotIn?, if_neg (by omega)]
      exact ih hs hm

end Slots

section Extras

variable {n : Nat} {e d : Extra} {extras : List (Nat × Extra)} {x : Nat × Extra}

theorem eq_or_mem_of_putExtra (h : x ∈ putExtra n e extras) : x = (n, e) ∨ x ∈ extras := by
  induction extras with
  | nil => exact .inl (List.mem_singleton.mp h)
  | cons y extras ih =>
    obtain ⟨k, c⟩ := y
    simp only [putExtra] at h
    split at h
    · exact List.mem_cons.mp h
    · split at h
      · rcases List.mem_cons.mp h with he | h
        · exact .inl he
        · exact .inr (List.mem_cons_of_mem _ h)
      · rcases List.mem_cons.mp h with rfl | h
        · exact .inr List.mem_cons_self
        · rcases ih h with he | h
          · exact .inl he
          · exact .inr (List.mem_cons_of_mem _ h)

theorem ascending_putExtra (h : extras.Pairwise (·.1 < ·.1)) : (putExtra n e extras).Pairwise (·.1 < ·.1) := by
  induction extras with
  | nil => exact List.pairwise_singleton _ _
  | cons y extras ih =>
    obtain ⟨k, c⟩ := y
    obtain ⟨hk, hs⟩ := List.pairwise_cons.mp h
    simp only [putExtra]
    split
    · next hlt =>
      refine List.pairwise_cons.mpr ⟨?_, h⟩
      intro z hz
      rcases List.mem_cons.mp hz with rfl | hz
      · exact hlt
      · exact Nat.lt_trans hlt (hk z hz)
    · split
      · next he =>
        refine List.pairwise_cons.mpr ⟨?_, hs⟩
        intro z hz
        rw [he]
        exact hk z hz
      · refine List.pairwise_cons.mpr ⟨?_, ih hs⟩
        intro z hz
        rcases eq_or_mem_of_putExtra hz with rfl | hz
        · dsimp only
          omega
        · exact hk z hz

theorem putExtra_putExtra : putExtra n e (putExtra n d extras) = putExtra n e extras := by
  induction extras with
  | nil => simp [putExtra]
  | cons y extras ih =>
    obtain ⟨k, c⟩ := y
    simp only [putExtra]
    split
    · simp [putExtra]
    · split
      · simp [putExtra]
      · simp only [putExtra]
        rw [if_neg ‹_›, if_neg ‹_›, ih]

theorem putExtra_last (h : ∀ x ∈ extras, x.1 < n) : putExtra n e extras = extras ++ [(n, e)] := by
  induction extras with
  | nil => rfl
  | cons y extras ih =>
    obtain ⟨k, c⟩ := y
    have hk := h (k, c) List.mem_cons_self
    dsimp only at hk
    rw [putExtra, if_neg (by omega), if_neg (by omega), ih (fun x hx => h x (List.mem_cons_of_mem _ hx))]
    rfl

theorem extraIn?_putExtra_self : extraIn? n (putExtra n e extras) = some e := by
  induction extras with
  | nil => simp [putExtra, extraIn?]
  | cons y extras ih =>
    obtain ⟨k, c⟩ := y
    simp only [putExtra]
    split
    · simp [extraIn?]
    · split
      · simp [extraIn?]
      · rw [extraIn?, if_neg (by omega)]
        exact ih

theorem extraIn?_eq_none (h : ∀ x ∈ extras, x.1 ≠ n) : extraIn? n extras = none := by
  induction extras with
  | nil => rfl
  | cons y extras ih =>
    obtain ⟨k, c⟩ := y
    rw [extraIn?, if_neg (h (k, c) List.mem_cons_self)]
    exact ih (fun x hx => h x (List.mem_cons_of_mem _ hx))

theorem mem_of_extraIn? (h : extraIn? n extras = some e) : (n, e) ∈ extras := by
  induction extras with
  | nil => simp [extraIn?] at h
  | cons y extras ih =>
    obtain ⟨k, c⟩ := y
    rw [extraIn?] at h
    split at h
    · next hn =>
      cases h
      exact hn ▸ List.mem_cons_self
    · exact List.mem_cons_of_mem _ (ih h)

end Extras

theorem get_set (m : Message) (f : FieldDef) (v : Value) : (m.set f v).get f = v := by
  unfold get get? set
  split
  · simp [extraIn?_putExtra_self]
  · simp [slotIn?_putSlot_self]

/-- The slots that stay when a field is set: its own, and those in no oneof with it. -/
def kept (m : Message) (f : FieldDef) : List (FieldDef × Value) :=
  m.slots.filter (fun s => f.oneof.isNone || s.1.oneof ≠ f.oneof || s.1.number = f.number)

theorem set_slots (m : Message) (hx : f.extension = false) (v : Value) :
    m.set f v = { m with slots := putSlot f v (m.kept f) } := by
  simp only [set, hx, Bool.false_eq_true, ↓reduceIte, kept]

theorem mem_kept {m : Message} :
    s ∈ m.kept f ↔ s ∈ m.slots ∧ (f.oneof = none ∨ s.1.oneof ≠ f.oneof ∨ s.1.number = f.number) := by
  simp [kept, or_assoc]

theorem kept_all {m : Message} (h : ∀ s ∈ m.slots, f.oneof = none ∨ s.1.oneof ≠ f.oneof) : m.kept f = m.slots := by
  apply List.filter_eq_self.mpr
  intro s hs
  rcases h s hs with ho | ho
  · simp [ho]
  · simp [ho]

theorem set_outside_oneof (m : Message) (hx : f.extension = false) (ho : f.oneof = none) :
    m.set f v = { m with slots := putSlot f v m.slots } := by
  rw [set_slots m hx, kept_all (fun _ _ => .inl ho)]

theorem filter_putSlot {keep : FieldDef × Value → Bool} (h : keep (f, v) = true) (slots : List (FieldDef × Value)) :
    (putSlot f v (slots.filter keep)).filter keep = putSlot f v (slots.filter keep) := by
  rw [List.filter_eq_self]
  intro s hs
  rcases eq_or_mem_of_putSlot hs with rfl | hs
  · exact h
  · exact (List.mem_filter.mp hs).2

/-- Of two values that a field is set to, the later one stays. -/
theorem set_set (m : Message) (f : FieldDef) (v w : Value) : (m.set f v).set f w = m.set f w := by
  unfold set
  split
  · simp [putExtra_putExtra]
  · dsimp only
    rw [filter_putSlot (by simp), putSlot_putSlot]

end Message

end WireQuery
