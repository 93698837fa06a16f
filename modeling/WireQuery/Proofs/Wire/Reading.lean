import WireQuery.Proofs.Wire.Varint

/-!
Reading fields gives back what was written, if the framing of the message reads every field by its own key.
Fields that were read are of that kind.
-/

namespace WireQuery.Wire

mutual

/-- A payload that its own key tells how to read, or that is read by its length. -/
def Payload.Readable (f : Framing σ) (state : σ) (number : Nat) : Payload → Prop
  | .bytes _ => True
  | .group fields => f.sized state number = false ∧ Readable f (f.inside state number) fields
  | _ => f.sized state number = false

def Readable (f : Framing σ) (state : σ) : List (Nat × Payload) → Prop
  | [] => True
  | (n, p) :: fields => (0 < n ∧ n < 2 ^ 29) ∧ p.Readable f state n ∧ Readable f state fields

end

theorem readable_iff : Readable f state fields ↔
    ∀ x ∈ fields, (0 < x.1 ∧ x.1 < 2 ^ 29) ∧ x.2.Readable f state x.1 := by
  induction fields with
  | nil => simp [Readable]
  | cons x fields ih =>
    obtain ⟨n, p⟩ := x
    rw [Readable, ih]
    simp [and_assoc]

theorem Readable.append (ha : Readable f state as) (hb : Readable f state bs) : Readable f state (as ++ bs) := by
  rw [readable_iff] at ha hb ⊢
  intro x hx
  rcases List.mem_append.mp hx with hx | hx
  · exact ha x hx
  · exact hb x hx

/-- A run of payloads of one number. -/
theorem readable_run {ps : List Payload} (hn : 0 < n ∧ n < 2 ^ 29) (h : ∀ x ∈ ps, Payload.Readable f state n x) :
    Readable f state (ps.map (n, ·)) := by
  rw [readable_iff]
  intro x hx
  obtain ⟨y, hy, rfl⟩ := List.mem_map.mp hx
  exact ⟨hn, h y hy⟩

theorem Readable.reverse (h : Readable f state fields) : Readable f state fields.reverse := by
  rw [readable_iff] at h ⊢
  intro x hx
  exact h x (List.mem_reverse.mp hx)

theorem Readable.filter (h : Readable f state fields) (keep : Field → Bool) :
    Readable f state (fields.filter keep) := by
  rw [readable_iff] at h ⊢
  intro x hx
  exact h x (List.mem_filter.mp hx).1

section Step

variable {f : Framing σ} {state : σ} {done : List Field} {frames : List (Frame σ)}

theorem readIn_nil : readIn f state done [] [] = some done.reverse := by
  rw [readIn]
  simp

theorem ne_nil_of_readKey (h : readKey s = some k) : s.isEmpty = false := by
  cases s with
  | nil => simp [readKey, readVarint, readVarintIn] at h
  | cons b s => rfl

theorem readIn_end (fr : Frame σ) (hk : readKey s = some (fr.number, .groupEnd, r)) :
    readIn f state done (fr :: frames) s =
      readIn f fr.state ((fr.number, .group done.reverse) :: fr.before) frames r := by
  rw [readIn, ne_nil_of_readKey hk]
  simp only [Bool.false_eq_true, ↓reduceIte]
  split
  · next h => simp [hk] at h
  · next h =>
    rw [hk] at h
    obtain ⟨rfl, rfl, rfl⟩ := h
    simp

theorem readIn_start (hk : readKey s = some (n, .groupStart, r)) (hs : f.sized state n = false) :
    readIn f state done frames s = readIn f (f.inside state n) [] (⟨n, state, done⟩ :: frames) r := by
  rw [readIn, ne_nil_of_readKey hk]
  simp only [Bool.false_eq_true, ↓reduceIte]
  split
  · next h => simp [hk] at h
  · next h =>
    rw [hk] at h
    obtain ⟨rfl, rfl, rfl⟩ := h
    simp [hs]

theorem readIn_plain (hk : readKey s = some (n, t, r)) (hs : f.sized state n = true → t = .bytes)
    (hp : readPlain t r = some (p, r')) :
    readIn f state done frames s = readIn f state ((n, p) :: done) frames r' := by
  have hstart : t ≠ .groupStart := by
    rintro rfl
    simp [readPlain] at hp
  have hend : t ≠ .groupEnd := by
    rintro rfl
    simp [readPlain] at hp
  have ht : (if f.sized state n = true then .bytes else t) = t := by
    split
    · next h => exact (hs h).symm
    · rfl
  rw [readIn, ne_nil_of_readKey hk]
  simp only [Bool.false_eq_true, ↓reduceIte]
  split
  · next h => simp [hk] at h
  · next h =>
    rw [hk] at h
    obtain ⟨rfl, rfl, rfl⟩ := h
    split
    · contradiction
    · rw [if_neg (by rw [ht]; exact hstart)]
      split
      · next h =>
        rw [ht, hp] at h
        contradiction
      · next h =>
        rw [ht, hp] at h
        obtain ⟨rfl, rfl⟩ := h
        rfl

end Step

/-- The type under which a payload of fixed layout is read. -/
def Payload.plainType? : Payload → Option WireType
  | .varint _ => some .varint
  | .fixed64 _ => some .fixed64
  | .fixed32 _ => some .fixed32
  | _ => none

theorem readPlain_body {p : Payload} (ht : p.plainType? = some t) (r : Bytes) :
    readPlain t (p.body ++ r) = some (p, r) := by
  cases p <;> simp only [Payload.plainType?, Option.some.injEq, reduceCtorEq] at ht
  all_goals subst ht
  case varint v => simp [readPlain, Payload.body, readVarint_write v.toNat_lt]
  case fixed64 v => simp [readPlain, Payload.body, readFixed_write (w := 8) v.toNat_lt]
  case fixed32 v => simp [readPlain, Payload.body, readFixed_write (w := 4) v.toNat_lt]

/-- A packed run gives back the payloads whose bodies it is made of. -/
theorem readRun_flatMap {ps : List Payload} (h : ∀ p ∈ ps, ∀ r, readPlain t (p.body ++ r) = some (p, r)) :
    readRun t (ps.flatMap Payload.body) = some ps := by
  induction ps with
  | nil =>
    rw [List.flatMap_nil, readRun]
  | cons p ps ih =>
    have hp := h p (by simp) (ps.flatMap Payload.body)
    have hps := ih (fun q hq => h q (by simp [hq]))
    rw [List.flatMap_cons]
    generalize hs : p.body ++ ps.flatMap Payload.body = s at hp
    cases s with
    | nil =>
      have := readPlain_length hp
      simp at this
    | cons b s =>
      rw [readRun]
      split
      · next hn => simp [hp] at hn
      · next hn =>
        rw [hp] at hn
        cases hn
        simp [hps]

mutual

theorem readIn_payload {f : Framing σ} {frames : List (Frame σ)} (p : Payload) (hr : p.Readable f state n)
    (hn : 0 < n ∧ n < 2 ^ 29) (hl : (p.write n).length < 2 ^ 64) :
    readIn f state done frames (p.write n ++ r) = readIn f state ((n, p) :: done) frames r := by
  match p with
  | .varint v =>
    rw [Payload.write, List.append_assoc]
    refine readIn_plain (readKey_write hn.1 hn.2 _ _) ?_ ?_
    · intro h
      simp [Payload.Readable, h] at hr
    · exact readPlain_body (p := .varint v) rfl r
  | .fixed64 v =>
    rw [Payload.write, List.append_assoc]
    refine readIn_plain (readKey_write hn.1 hn.2 _ _) ?_ ?_
    · intro h
      simp [Payload.Readable, h] at hr
    · exact readPlain_body (p := .fixed64 v) rfl r
  | .bytes b =>
    rw [Payload.write, List.append_assoc]
    apply readIn_plain (readKey_write hn.1 hn.2 _ _) (fun _ => rfl)
    have hb : b.length < 2 ^ 64 := by
      simp only [Payload.write, writeBytes, List.length_append] at hl
      omega
    simp [readPlain, readBytes_write hb]
  | .fixed32 v =>
    rw [Payload.write, List.append_assoc]
    refine readIn_plain (readKey_write hn.1 hn.2 _ _) ?_ ?_
    · intro h
      simp [Payload.Readable, h] at hr
    · exact readPlain_body (p := .fixed32 v) rfl r
  | .group fields =>
    obtain ⟨hs, hf⟩ := hr
    have hw : (write fields).length < 2 ^ 64 := by
      simp only [Payload.write, List.length_append] at hl
      omega
    rw [Payload.write, List.append_assoc, List.append_assoc,
      readIn_start (readKey_write hn.1 hn.2 _ _) hs, readIn_fields fields hf hw]
    rw [readIn_end ⟨n, state, done⟩ (readKey_write hn.1 hn.2 _ _)]
    simp

theorem readIn_fields {f : Framing σ} {frames : List (Frame σ)} (fields : List (Nat × Payload))
    (hr : Readable f state fields) (hl : (write fields).length < 2 ^ 64) :
    readIn f state done frames (write fields ++ r) = readIn f state (fields.reverse ++ done) frames r := by
  match fields with
  | [] => simp [write]
  | (n, p) :: fields =>
    obtain ⟨hn, hp, hf⟩ := hr
    simp only [write, List.length_append] at hl
    rw [write, List.append_assoc, readIn_payload p hp hn (by omega), readIn_fields fields hf (by omega)]
    simp

end

/-- Reading gives back the fields that were written. -/
theorem read_write {f : Framing σ} (hr : Readable f state fields) (hl : (write fields).length < 2 ^ 64) :
    read f state (write fields) = some fields := by
  have h : readIn f state [] [] (write fields ++ []) = readIn f state (fields.reverse ++ []) [] [] :=
    readIn_fields fields hr hl
  rw [List.append_nil, List.append_nil, readIn_nil, List.reverse_reverse] at h
  exact h

theorem number_of_readKey (h : readKey s = some (n, t, r)) : 0 < n ∧ n < 2 ^ 29 := by
  unfold readKey at h
  split at h
  · simp at h
  · split at h
    · next hk =>
      obtain ⟨_, _, he⟩ := Option.map_eq_some_iff.mp h
      obtain ⟨rfl, -, -⟩ := he
      rw [UInt32.size] at hk
      omega
    · simp at h

theorem readable_of_readPlain {f : Framing σ} (h : readPlain t s = some (p, r))
    (hs : f.sized state n = true → t = .bytes) : p.Readable f state n := by
  unfold readPlain at h
  split at h
  case h_3 =>
    obtain ⟨_, _, he⟩ := Option.map_eq_some_iff.mp h
    obtain ⟨rfl, rfl⟩ := he
    simp [Payload.Readable]
  case h_5 => simp at h
  all_goals
    have hf : f.sized state n = false := by
      cases hz : f.sized state n with
      | false => rfl
      | true => simpa using hs hz
    obtain ⟨_, _, he⟩ := Option.map_eq_some_iff.mp h
    obtain ⟨rfl, rfl⟩ := he
    simp [Payload.Readable, hf]

/-- The open groups lead from the state of the whole to the state of the innermost. -/
def OpenIn (f : Framing σ) (root : σ) : σ → List (Frame σ) → Prop
  | state, [] => state = root
  | state, fr :: frames =>
    state = f.inside fr.state fr.number ∧ f.sized fr.state fr.number = false ∧
      (0 < fr.number ∧ fr.number < 2 ^ 29) ∧ Readable f fr.state fr.before ∧ OpenIn f root fr.state frames

theorem readable_of_readIn {f : Framing σ} {frames : List (Frame σ)}
    (h : readIn f state done frames s = some fields) (hd : Readable f state done)
    (ho : OpenIn f root state frames) : Readable f root fields := by
  fun_induction readIn f state done frames s with
  | case1 state done frames s _ hf =>
    have hn : frames = [] := List.isEmpty_iff.mp hf
    subst hn
    rw [← Option.some.inj h]
    exact (show state = root from ho) ▸ hd.reverse
  | case4 state done s _ r fr frames _ _ _ ih =>
    obtain ⟨rfl, hs, hn, hb, ho⟩ := ho
    simp only [List.unattach_reverse, List.unattach_attach] at ih
    exact ih h ⟨hn, ⟨hs, hd.reverse⟩, hb⟩ ho
  | case6 state done s _ n r frames t hk _ t' ht _ _ ih =>
    have hs : f.sized state n = false := by
      cases hz : f.sized state n with
      | false => rfl
      | true => simp [t', hz] at ht
    exact ih h trivial ⟨rfl, hs, number_of_readKey hk, hd, ho⟩
  | case8 state done s _ n r frames t hk _ t' ht p r' hp _ _ _ ih =>
    refine ih h ⟨number_of_readKey hk, readable_of_readPlain hp ?_, hd⟩ ho
    intro hs
    simp [t', hs]
  | _ => simp_all

/-- Whatever was read can be written and read again. -/
theorem readable_of_read {f : Framing σ} (h : read f state s = some fields) : Readable f state fields :=
  readable_of_readIn h trivial rfl

/-- What is read once a key is. -/
def readAfter (f : Framing σ) (state : σ) (done : List Field) (frames : List (Frame σ)) (n : Nat) (t : WireType)
    (r : Bytes) : Option (List Field) :=
  match frames, t with
  | fr :: frames, .groupEnd =>
    if fr.number = n then readIn f fr.state ((n, .group done.reverse) :: fr.before) frames r else none
  | frames, t =>
    let t := if f.sized state n then .bytes else t
    if t = .groupStart then readIn f (f.inside state n) [] (⟨n, state, done⟩ :: frames) r
    else (readPlain t r).bind (fun (p, r') => readIn f state ((n, p) :: done) frames r')

/-- Whatever does not end a group is read as a field of the innermost one. -/
theorem readAfter_other {f : Framing σ} {frames : List (Frame σ)} (h : ∀ fr rest, frames = fr :: rest → t ≠ .groupEnd) :
    readAfter f state done frames n t r =
      if (if f.sized state n then .bytes else t) = WireType.groupStart then
        readIn f (f.inside state n) [] (⟨n, state, done⟩ :: frames) r
      else (readPlain (if f.sized state n then .bytes else t) r).bind
        (fun (p, r') => readIn f state ((n, p) :: done) frames r') := by
  unfold readAfter
  split
  · exact absurd rfl (h _ _ rfl)
  · rfl

theorem readIn_after {f : Framing σ} {frames : List (Frame σ)} (he : s.isEmpty = false) :
    readIn f state done frames s = (readKey s).bind (fun (n, t, r) => readAfter f state done frames n t r) := by
  rw [readIn, he]
  simp only [Bool.false_eq_true, ↓reduceIte]
  split
  · next hk => rw [hk, Option.bind_none]
  · next n t r hk =>
    have hb : (readKey s).bind (fun (n, t, r) => readAfter f state done frames n t r) =
        readAfter f state done frames n t r := by rw [hk, Option.bind_some]
    rw [hb]
    split
    · simp [readAfter]
    · next hne =>
      rw [readAfter_other]
      · generalize (if f.sized state n = true then WireType.bytes else t) = u
        by_cases hu : u = WireType.groupStart
        · rw [if_pos hu, if_pos hu]
        · rw [if_neg hu, if_neg hu]
          split
          · next hp => rw [hp, Option.bind_none]
          · next hp => rw [hp, Option.bind_some]
      · rintro fr rest rfl rfl
        exact hne fr rest hk rfl rfl HEq.rfl

theorem readAfter_congr {f g : Framing σ} {S : σ → Prop}
    (h : ∀ s n, S s → f.sized s n = g.sized s n ∧ f.inside s n = g.inside s n ∧ S (f.inside s n))
    (hs : S state) {frames : List (Frame σ)} (hf : ∀ fr ∈ frames, S fr.state)
    (ih : ∀ state done (frames : List (Frame σ)) (s : Bytes), s.length ≤ r.length → S state →
      (∀ fr ∈ frames, S fr.state) → readIn f state done frames s = readIn g state done frames s) :
    readAfter f state done frames n t r = readAfter g state done frames n t r := by
  obtain ⟨hsized, hinside, hS⟩ := h state n hs
  unfold readAfter
  split
  · next fr frames =>
    rw [ih fr.state _ frames r (Nat.le_refl _) (hf fr List.mem_cons_self)
      (fun fr hm => hf fr (List.mem_cons_of_mem _ hm))]
  · dsimp only
    rw [hsized, ← hinside]
    generalize (if g.sized state n = true then WireType.bytes else t) = u
    by_cases hu : u = .groupStart
    · rw [if_pos hu, if_pos hu]
      apply ih _ _ _ r (Nat.le_refl _) hS
      intro fr hm
      rcases List.mem_cons.mp hm with rfl | hm
      · exact hs
      · exact hf fr hm
    · rw [if_neg hu, if_neg hu]
      cases hp : readPlain u r with
      | none => rfl
      | some x => exact ih _ _ _ _ (Nat.le_of_lt (readPlain_length hp)) hs hf

/-- Framings that agree wherever the reading can come read the same. -/
theorem readIn_congr {f g : Framing σ} {S : σ → Prop}
    (h : ∀ s n, S s → f.sized s n = g.sized s n ∧ f.inside s n = g.inside s n ∧ S (f.inside s n))
    (hs : S state) {frames : List (Frame σ)} (hf : ∀ fr ∈ frames, S fr.state) (s : Bytes) :
    readIn f state done frames s = readIn g state done frames s := by
  induction hlen : s.length using Nat.strongRecOn generalizing state done frames s with
  | ind k ih =>
    cases he : s.isEmpty with
    | true =>
      rw [readIn, readIn, he]
      rfl
    | false =>
      rw [readIn_after he, readIn_after he]
      cases hk : readKey s with
      | none => rfl
      | some x =>
        have hlt := readKey_length hk
        apply readAfter_congr h hs hf
        intro state done frames s' hle hs hf
        exact ih s'.length (by omega) hs hf s' rfl

end WireQuery.Wire
