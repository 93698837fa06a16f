import Mathlib
import WireQuery.Proofs.Report.JsonNumbers

namespace WireQuery

/-- What a cell is in JSON. Real numbers that are not finite are null there. -/
def Datum.image : Datum → Json.Tree
  | .null => .null
  | .integer i => .integer i.toInt
  | .real bits =>
    match Binary.read Binary.double bits.toNat with
    | .finite .. => .real bits
    | _ => .null
  | .text s => .text s
  | .blob b => .text (Hex.text b)

namespace Json

variable {r s : List Char}

theorem readText?_plain (hq : c ≠ '"') (hb : c ≠ '\\') (hc : ¬c.toNat < 0x20) (r : List Char) :
    readText? (c :: r) = (readText? r).map (fun (text, t) => (c :: text, t)) := by
  rw [readText?, if_neg hq, if_neg hb, if_neg hc]

theorem readText?_escape (h : readEscape? r = some (d, t)) :
    readText? ('\\' :: r) = (readText? t).map (fun (text, t) => (d :: text, t)) := by
  rw [readText?, if_neg (by decide), if_pos rfl]
  split
  · next hnone =>
    rw [h] at hnone
    contradiction
  · next hsome =>
    rw [h] at hsome
    obtain ⟨rfl, rfl⟩ := Prod.mk.inj (Option.some.inj hsome)
    rfl

theorem readEscape?_control (hc : c.toNat < 0x20) (r : List Char) :
    readEscape? ('u' :: '0' :: '0' :: (Hex.encode [UInt8.ofNat c.toNat] ++ r)) = some (c, r) := by
  have hbyte : (UInt8.ofNat c.toNat).toNat = c.toNat := by
    rw [UInt8.toNat_ofNat']
    omega
  have hzero : Hex.digitValue? '0' = some 0 := rfl
  have hhigh := Hex.digitValue?_digit (n := c.toNat / 16) (by omega)
  have hlow := Hex.digitValue?_digit (n := c.toNat % 16) (by omega)
  have hunit : readUnit? ('0' :: '0' :: (Hex.encode [UInt8.ofNat c.toNat] ++ r)) = some (c.toNat, r) := by
    simp only [Hex.encode, hbyte, List.cons_append, List.nil_append, readUnit?, hzero, hhigh, hlow, Option.bind_eq_bind,
      Option.bind_some, Option.some.injEq, Prod.mk.injEq, and_true]
    omega
  rw [readEscape?, if_pos rfl, readUnits?, hunit]
  dsimp only
  rw [if_pos (by omega), Char.ofNat_toNat]

/-- A character is written with one behind a backslash, by its number, or as itself. -/
theorem escapeChar_cases (c : Char) :
    (∃ d, escapeChar c = ['\\', d] ∧ d ≠ '\n' ∧ ∀ r, readEscape? (d :: r) = some (c, r)) ∨
      (c.toNat < 0x20 ∧ escapeChar c = '\\' :: 'u' :: '0' :: '0' :: Hex.encode [UInt8.ofNat c.toNat]) ∨
      (c ≠ '"' ∧ c ≠ '\\' ∧ ¬c.toNat < 0x20 ∧ escapeChar c = [c]) := by
  unfold escapeChar
  split_ifs with hquote hbackslash hline hreturn htab hback hfeed hcontrol
  · exact .inl ⟨_, rfl, by decide, fun _ => by rw [hquote]; rfl⟩
  · exact .inl ⟨_, rfl, by decide, fun _ => by rw [hbackslash]; rfl⟩
  · exact .inl ⟨_, rfl, by decide, fun _ => by rw [hline]; rfl⟩
  · exact .inl ⟨_, rfl, by decide, fun _ => by rw [hreturn]; rfl⟩
  · exact .inl ⟨_, rfl, by decide, fun _ => by rw [htab]; rfl⟩
  · exact .inl ⟨_, rfl, by decide, fun _ => by rw [hback]; rfl⟩
  · exact .inl ⟨_, rfl, by decide, fun _ => by rw [hfeed]; rfl⟩
  · exact .inr (.inl ⟨hcontrol, rfl⟩)
  · exact .inr (.inr ⟨hquote, hbackslash, hcontrol, rfl⟩)

/-- A character is read back from what it is written as in a string. -/
theorem readText?_escapeChar (c : Char) (r : List Char) :
    readText? (escapeChar c ++ r) = (readText? r).map (fun (text, t) => (c :: text, t)) := by
  obtain ⟨d, hwritten, -, hread⟩ | ⟨hc, hwritten⟩ | ⟨hquote, hbackslash, hc, hwritten⟩ := escapeChar_cases c
  · rw [hwritten]
    exact readText?_escape (hread r)
  · rw [hwritten]
    exact readText?_escape (readEscape?_control hc r)
  · rw [hwritten]
    exact readText?_plain hquote hbackslash hc r

theorem readText?_escaped (s r : List Char) : readText? (s.flatMap escapeChar ++ '"' :: r) = some (s, r) := by
  induction s with
  | nil => rw [List.flatMap_nil, List.nil_append, readText?, if_pos rfl]
  | cons c s ih => rw [List.flatMap_cons, List.append_assoc, readText?_escapeChar, ih, Option.map_some]

theorem readToken?_string (s : String) (r : List Char) : readToken? (string s ++ r) = some (.text s, r) := by
  have h := readText?_escaped s.toList r
  simp [string, readToken?, h]

/-- The state in which a text ends that is read from a state on. -/
def run? (state : State) (s : List Char) : Option State := (tokens? s).bind (·.foldlM step? state)

theorem run?_nil (state : State) : run? state [] = some state := by
  simp [run?, tokens?]

theorem readToken?_blank (h : isBlank c = true) (r : List Char) : readToken? (c :: r) = none := by
  simp only [isBlank, Bool.or_eq_true, decide_eq_true_eq] at h
  obtain ((rfl | rfl) | rfl) | rfl := h <;> rfl

theorem tokens?_of_readToken? (h : readToken? s = some (t, r)) : tokens? s = (tokens? r).map (t :: ·) := by
  have hblank : s.dropWhile isBlank = s := by
    cases s with
    | nil => rfl
    | cons c s =>
      cases hc : isBlank c with
      | false => simp [hc]
      | true =>
        rw [readToken?_blank hc] at h
        contradiction
  rw [tokens?]
  split
  · next hnil =>
    rw [hblank] at hnil
    subst hnil
    contradiction
  · next c u hcons =>
    have h : readToken? (c :: u) = some (t, r) := by rw [← hcons, hblank, h]
    split
    · next hnone =>
      rw [h] at hnone
      contradiction
    · next hsome =>
      rw [h] at hsome
      obtain ⟨rfl, rfl⟩ := Prod.mk.inj (Option.some.inj hsome)
      rfl

theorem run?_step (h : readToken? s = some (t, r)) (hs : step? state t = some state') : run? state s = run? state' r := by
  rw [run?, run?, tokens?_of_readToken? h, Option.bind_map]
  congr 1
  funext tokens
  simp [hs]

theorem stops_cons (h : isMark c = true) (r : List Char) : Stops (c :: r) := by simpa [Stops] using h

/-- A cell is one token, and its image is the value that the token begins and ends. -/
theorem readToken?_value (d : Datum) {r : List Char} (hr : Stops r) :
    ∃ t, readToken? (value d ++ r) = some (t, r) ∧ ∀ frames, begin? frames t = some (put d.image frames) := by
  have hnull (r : List Char) : readToken? ("null".toList ++ r) = some (.leaf .null, r) := by rfl
  cases d with
  | null => exact ⟨_, hnull r, fun _ => rfl⟩
  | integer i =>
    obtain ⟨p, hp, hchars, hnumber⟩ := integer_spelling i.toInt
    refine ⟨.leaf (.integer i.toInt), ?_, fun _ => rfl⟩
    rw [value, hchars, List.append_assoc, readToken?_chars hp _ hr, hnumber]
  | real bits =>
    cases h : Binary.read Binary.double bits.toNat with
    | nan =>
      simp only [value, Datum.image, h]
      exact ⟨_, hnull r, fun _ => rfl⟩
    | infinite negative =>
      simp only [value, Datum.image, h]
      exact ⟨_, hnull r, fun _ => rfl⟩
    | finite negative m e =>
      obtain ⟨p, hp, hchars, hnumber⟩ := double_spelling h
      simp only [value, Datum.image, h]
      refine ⟨.leaf (.real bits), ?_, fun _ => rfl⟩
      rw [hchars, List.append_assoc, readToken?_chars hp _ hr, hnumber]
  | text s => exact ⟨_, readToken?_string s r, fun _ => rfl⟩
  | blob b => exact ⟨_, readToken?_string (Hex.text b) r, fun _ => rfl⟩

theorem run?_value (d : Datum) (frames : List Frame) {r : List Char} (hr : Stops r) :
    run? (.value frames) (value d ++ r) = run? (put d.image frames) r := by
  obtain ⟨t, hread, hbegin⟩ := readToken?_value d hr
  exact run?_step hread (hbegin frames)

theorem run?_mark (hc : isMark c = true) (hs : step? state (.mark c) = some state') :
    run? state (c :: r) = run? state' r := by
  refine run?_step ?_ hs
  have hquote : c ≠ '"' := ne_of_class hc rfl
  rw [readToken?, if_neg hquote, if_pos hc]

/-- A state in which a member may come, behind the members before it. -/
def AwaitsName (before : List (String × Tree)) (frames : List Frame) (state : State) : Prop :=
  ∀ name, step? state (.text name) = some (.colon before name frames)

def memberImage (m : String × Datum) : String × Tree := (m.1, m.2.image)

theorem run?_member (hs : AwaitsName before frames state) (m : String × Datum) {r : List Char} (hr : Stops r) :
    run? state (member m ++ r) = run? (.members (before ++ [memberImage m]) frames) r := by
  obtain ⟨name, d⟩ := m
  rw [member, List.append_assoc, run?_step (readToken?_string name _) (hs name), List.cons_append,
    run?_mark (by decide) rfl, run?_value d _ hr]
  rfl

theorem run?_members (hs : AwaitsName before frames state) {ms : List (String × Datum)} (hne : ms ≠ []) (r : List Char) :
    run? state (List.intercalate [','] (ms.map member) ++ '}' :: r) =
      run? (put (.object (before ++ ms.map memberImage)) frames) r := by
  induction ms generalizing state before with
  | nil => contradiction
  | cons m ms ih =>
    cases ms with
    | nil =>
      rw [List.map_singleton, List.intercalate_singleton, run?_member hs m (stops_cons (by decide) r),
        run?_mark (by decide) rfl, List.map_singleton]
    | cons m' ms =>
      have hnext (before : List (String × Tree)) : AwaitsName before frames (.name before frames) := fun _ => rfl
      rw [List.map_cons, List.map_cons, List.intercalate_cons_cons, List.append_assoc, List.append_assoc,
        List.singleton_append, run?_member hs m (stops_cons (by decide) _), run?_mark (by decide) rfl, ← List.map_cons,
        ih (hnext _) (List.cons_ne_nil m' ms)]
      simp

theorem run?_object (ms : List (String × Datum)) (frames : List Frame) (r : List Char) :
    run? (.value frames) (object ms ++ r) = run? (put (.object (ms.map memberImage)) frames) r := by
  rw [object, List.append_assoc, List.cons_append, run?_mark (by decide) rfl, List.singleton_append]
  cases ms with
  | nil => exact run?_mark (by decide) rfl
  | cons m ms =>
    have hfirst : AwaitsName [] frames (.firstName frames) := fun _ => rfl
    exact run?_members hfirst (List.cons_ne_nil m ms) r

/-- The text of an object is a JSON text, with the members it was written for. -/
theorem read?_object (ms : List (String × Datum)) :
    read? (String.ofList (object ms)) = some (.object (ms.map memberImage)) := by
  have hrun := run?_object ms [] []
  rw [List.append_nil, run?_nil, run?] at hrun
  obtain ⟨tokens, htokens, hstate⟩ := Option.bind_eq_some_iff.mp hrun
  simp [read?, htokens, hstate, put]

theorem encode_on_line (b : Bytes) : '\n' ∉ Hex.encode b := by
  have hdigit {n : Nat} (hn : n < 16) : '\n' ≠ Hex.digit n := by
    intro h
    have := Hex.digitValue?_digit hn
    rw [← h] at this
    contradiction
  induction b with
  | nil => simp [Hex.encode]
  | cons x b ih =>
    have := x.toNat_lt
    simp only [Hex.encode, List.mem_cons, not_or]
    exact ⟨hdigit (by omega), hdigit (by omega), ih⟩

theorem escapeChar_on_line (c : Char) : '\n' ∉ escapeChar c := by
  obtain ⟨d, hwritten, hd, -⟩ | ⟨-, hwritten⟩ | ⟨-, -, hc, hwritten⟩ := escapeChar_cases c
  · rw [hwritten]
    simp [hd.symm]
  · rw [hwritten]
    simpa using encode_on_line _
  · rw [hwritten]
    intro h
    obtain rfl := List.mem_singleton.mp h
    exact hc (by decide)

theorem string_on_line (s : String) : '\n' ∉ string s := by
  simp [string, escapeChar_on_line]

theorem value_on_line (d : Datum) : '\n' ∉ value d := by
  cases d with
  | null => simp [value]
  | integer i =>
    obtain ⟨p, hp, hchars, -⟩ := integer_spelling i.toInt
    rw [value, hchars]
    exact hp.on_line _
  | real bits =>
    cases h : Binary.read Binary.double bits.toNat with
    | nan => simp [value, h]
    | infinite negative => simp [value, h]
    | finite negative m e =>
      obtain ⟨p, hp, hchars, -⟩ := double_spelling h
      simp only [value, h]
      rw [hchars]
      exact hp.on_line _
  | text s => exact string_on_line s
  | blob b => exact string_on_line (Hex.text b)

theorem not_mem_intercalate {c : Char} {sep : List Char} {parts : List (List Char)} (hsep : c ∉ sep)
    (hparts : ∀ p ∈ parts, c ∉ p) : c ∉ List.intercalate sep parts := by
  induction parts with
  | nil => simp
  | cons p parts ih =>
    have hp := hparts p List.mem_cons_self
    cases parts with
    | nil => rwa [List.intercalate_singleton]
    | cons q parts =>
      have ih := ih (fun q hq => hparts q (List.mem_cons_of_mem _ hq))
      rw [List.intercalate_cons_cons]
      simp only [List.mem_append, not_or]
      exact ⟨⟨hp, hsep⟩, ih⟩

theorem object_on_line (ms : List (String × Datum)) : '\n' ∉ object ms := by
  have hmembers : '\n' ∉ List.intercalate [','] (ms.map member) := by
    apply not_mem_intercalate (by decide)
    intro p hp
    obtain ⟨m, -, rfl⟩ := List.mem_map.mp hp
    simp [member, string_on_line, value_on_line]
  simpa [object] using hmembers

end Json

end WireQuery
