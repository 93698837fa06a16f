import Mathlib
import WireQuery.Proofs.Number.Shortest
import WireQuery.Proofs.Path.Grammar
import WireQuery.Proofs.Report.JsonReader

namespace WireQuery.Json

/-- The parts of a number without its sign. -/
structure Spelling where
  whole : List Char
  fraction : List Char := []
  /-- The sign and the digits of a power of ten. -/
  power : Option (Bool × List Char) := none

namespace Spelling

def powerChars : Option (Bool × List Char) → List Char
  | none => []
  | some (negative, digits) => 'e' :: (if negative then '-' else '+') :: digits

def chars (p : Spelling) : List Char :=
  p.whole ++ ((if p.fraction = [] then [] else '.' :: p.fraction) ++ powerChars p.power)

def powerValue (power : Option (Bool × List Char)) : Option Int :=
  power.map (fun (negative, digits) => if negative then -(Decimal.value digits : Int) else Decimal.value digits)

def numeral (p : Spelling) : Numeral :=
  ⟨Decimal.value (p.whole ++ p.fraction), (powerValue p.power).getD 0 - p.fraction.length⟩

structure Strict (p : Spelling) : Prop where
  whole_ne : p.whole ≠ []
  whole_digits : ∀ c ∈ p.whole, c.isDigit = true
  zero : p.whole.head? = some '0' → p.whole = ['0']
  fraction_digits : ∀ c ∈ p.fraction, c.isDigit = true
  power_ne : ∀ q ∈ p.power, q.2 ≠ []
  power_digits : ∀ q ∈ p.power, ∀ c ∈ q.2, c.isDigit = true

end Spelling

/-- The rest of a text where a number may end. -/
def Stops (r : List Char) : Prop := ∀ c ∈ r.head?, isMark c = true

def minus (negative : Bool) : List Char := if negative then ['-'] else []

theorem ne_of_class {cls : Char → Bool} (hc : cls c = true) (hd : cls d = false) : c ≠ d := by
  rintro rfl
  exact Bool.false_ne_true (hd.symm.trans hc)

theorem isDigit_of_isMark (h : isMark c = true) : c.isDigit = false := by
  simp only [isMark, Bool.or_eq_true, decide_eq_true_eq] at h
  obtain ((((rfl | rfl) | rfl) | rfl) | rfl) | rfl := h <;> decide

theorem readMinus_minus (negative : Bool) (hd : d.isDigit = true) (s : List Char) :
    readMinus (minus negative ++ d :: s) = (negative, d :: s) := by
  cases negative with
  | true => rfl
  | false =>
    have hminus : d ≠ '-' := ne_of_class hd rfl
    simp [minus, readMinus, hminus]

theorem readWhole?_append {whole r : List Char} (hne : whole ≠ []) (hd : ∀ c ∈ whole, c.isDigit = true)
    (hzero : whole.head? = some '0' → whole = ['0']) (hr : ∀ c ∈ r.head?, c.isDigit = false) :
    readWhole? (whole ++ r) = some (whole, r) := by
  obtain ⟨htake, hdrop⟩ := Path.run_of_all Char.isDigit hd hr
  unfold readWhole?
  rw [htake, hdrop]
  simp only [hne, false_or]
  rw [if_neg (fun h => h.2 (hzero h.1))]

theorem readFraction?_append {fraction r : List Char} (hd : ∀ c ∈ fraction, c.isDigit = true)
    (hr : ∀ c ∈ r.head?, c.isDigit = false ∧ c ≠ '.') :
    readFraction? ((if fraction = [] then [] else '.' :: fraction) ++ r) = some (fraction, r) := by
  split
  · next h =>
    subst h
    cases r with
    | nil => rfl
    | cons c r =>
      have hc := (hr c rfl).2
      simp [readFraction?, hc]
  · next h =>
    obtain ⟨htake, hdrop⟩ := Path.run_of_all Char.isDigit hd (fun c hc => (hr c hc).1)
    rw [List.cons_append, readFraction?, htake, hdrop]
    simp [h]

theorem readPower?_append {power : Option (Bool × List Char)} {r : List Char} (hne : ∀ q ∈ power, q.2 ≠ [])
    (hd : ∀ q ∈ power, ∀ c ∈ q.2, c.isDigit = true) (hr : Stops r) :
    readPower? (Spelling.powerChars power ++ r) = some (Spelling.powerValue power, r) := by
  cases power with
  | none =>
    cases r with
    | nil => rfl
    | cons c r =>
      have hc := hr c rfl
      have he : c ≠ 'e' := ne_of_class hc rfl
      have hE : c ≠ 'E' := ne_of_class hc rfl
      simp [Spelling.powerChars, Spelling.powerValue, readPower?, he, hE]
  | some q =>
    obtain ⟨negative, digits⟩ := q
    have hsign : Decimal.readSign ((if negative then '-' else '+') :: (digits ++ r)) = (negative, digits ++ r) := by
      cases negative <;> rfl
    obtain ⟨htake, hdrop⟩ := Path.run_of_all Char.isDigit (hd _ rfl) (fun c hc => isDigit_of_isMark (hr c hc))
    have hexponent : Numeral.readExponent? ((if negative then '-' else '+') :: (digits ++ r)) =
        some (if negative then -(Decimal.value digits : Int) else Decimal.value digits, r) := by
      simp [Numeral.readExponent?, hsign, htake, hdrop, hne _ rfl]
    simp [Spelling.powerChars, Spelling.powerValue, readPower?, hexponent]

theorem head?_powerChars (power : Option (Bool × List Char)) {r : List Char} (hr : Stops r) :
    ∀ c ∈ (Spelling.powerChars power ++ r).head?, c.isDigit = false ∧ c ≠ '.' := by
  intro c hc
  cases power with
  | none =>
    have hmark := hr c hc
    exact ⟨isDigit_of_isMark hmark, ne_of_class hmark rfl⟩
  | some q =>
    obtain rfl : 'e' = c := by simpa [Spelling.powerChars] using hc
    decide

theorem readNumber?_chars {p : Spelling} (hp : p.Strict) (negative : Bool) {r : List Char} (hr : Stops r) :
    readNumber? (minus negative ++ (p.chars ++ r)) =
      some (numberOf negative p.whole p.fraction (Spelling.powerValue p.power), r) := by
  obtain ⟨d, whole, hwhole⟩ := List.exists_cons_of_ne_nil hp.whole_ne
  have hhead := head?_powerChars p.power hr
  have hminus : readMinus (minus negative ++ (p.chars ++ r)) = (negative, p.chars ++ r) := by
    rw [Spelling.chars, hwhole]
    exact readMinus_minus negative (hp.whole_digits d (hwhole ▸ List.mem_cons_self)) _
  have hbehind : ∀ c ∈ ((if p.fraction = [] then [] else '.' :: p.fraction) ++
      (Spelling.powerChars p.power ++ r)).head?, c.isDigit = false := by
    split
    · exact fun c hc => (hhead c hc).1
    · intro c hc
      obtain rfl : '.' = c := by simpa using hc
      decide
  unfold readNumber?
  rw [hminus]
  dsimp only
  rw [Spelling.chars, List.append_assoc, List.append_assoc,
    readWhole?_append hp.whole_ne hp.whole_digits hp.zero hbehind]
  dsimp only
  rw [readFraction?_append hp.fraction_digits hhead]
  dsimp only
  rw [readPower?_append hp.power_ne hp.power_digits hr, Option.map_some]

/-- A number is one token. -/
theorem readToken?_chars {p : Spelling} (hp : p.Strict) (negative : Bool) {r : List Char} (hr : Stops r) :
    readToken? (minus negative ++ (p.chars ++ r)) =
      some (.leaf (numberOf negative p.whole p.fraction (Spelling.powerValue p.power)), r) := by
  have hnumber := readNumber?_chars hp negative hr
  obtain ⟨c, s, hs, hc⟩ : ∃ c s, minus negative ++ (p.chars ++ r) = c :: s ∧ (c = '-' ∨ c.isDigit = true) := by
    obtain ⟨d, whole, hwhole⟩ := List.exists_cons_of_ne_nil hp.whole_ne
    have hd := hp.whole_digits d (hwhole ▸ List.mem_cons_self)
    cases negative with
    | true => exact ⟨'-', p.chars ++ r, rfl, .inl rfl⟩
    | false =>
      rw [Spelling.chars, hwhole]
      exact ⟨d, _, rfl, .inr hd⟩
  rw [hs] at hnumber ⊢
  have hquote : c ≠ '"' := by
    rintro rfl
    exact absurd hc (by decide)
  have hmark : ¬isMark c = true := by
    intro h
    obtain rfl | hd := hc
    · exact absurd h (by decide)
    · simp [isDigit_of_isMark h] at hd
  have halpha : ¬c.isAlpha = true := by
    obtain rfl | hd := hc
    · decide
    · simp only [Char.isDigit, Char.isAlpha, Char.isUpper, Char.isLower, Bool.or_eq_true, Bool.and_eq_true,
        decide_eq_true_eq, UInt32.le_iff_toNat_le, ge_iff_le] at hd ⊢
      simp at hd ⊢
      omega
  rw [readToken?, if_neg hquote, if_neg hmark, if_neg halpha, hnumber, Option.map_some]

theorem integer_spelling (i : Int) : ∃ p : Spelling, p.Strict ∧ Decimal.intChars i = minus (i < 0) ++ p.chars ∧
    numberOf (i < 0) p.whole p.fraction (Spelling.powerValue p.power) = .integer i := by
  have hstrict (n : Nat) : ({ whole := Decimal.natChars n } : Spelling).Strict :=
    { whole_ne := Decimal.natChars_ne_nil n
      whole_digits := fun _ => Decimal.isDigit_of_mem_natChars
      zero := by
        intro hzero
        obtain rfl | hpos := n.eq_zero_or_pos
        · rfl
        · exact absurd hzero (Decimal.head?_natChars hpos)
      fraction_digits := by simp
      power_ne := by simp
      power_digits := by simp }
  cases i with
  | ofNat n =>
    refine ⟨_, hstrict n, ?_, ?_⟩
    · simp [Decimal.intChars, minus, Spelling.chars, Spelling.powerChars]
    · simp [numberOf, Spelling.powerValue, Decimal.value_natChars]
  | negSucc n =>
    refine ⟨_, hstrict (n + 1), ?_, ?_⟩
    · simp [Decimal.intChars, minus, Spelling.chars, Spelling.powerChars]
    · simp [numberOf, Spelling.powerValue, Decimal.value_natChars]
      omega

/-- Digits that begin with another one than zero. -/
structure Significant (ds : List Char) : Prop where
  ne : ds ≠ []
  digits : ∀ c ∈ ds, c.isDigit = true
  head : ds.head? ≠ some '0'

theorem significant_natChars (h : 0 < n) : Significant (Decimal.natChars n) :=
  ⟨Decimal.natChars_ne_nil n, fun _ => Decimal.isDigit_of_mem_natChars, Decimal.head?_natChars h⟩

/-- The characters are a JSON number that is no integer there, and stands for `x`. -/
structure Spelling.Spells (p : Spelling) (chars : List Char) (x : ℚ) : Prop where
  strict : p.Strict
  real : ¬(p.fraction = [] ∧ p.power = none)
  chars : chars = p.chars
  value : p.numeral.toRat = x

open NumberStyle (zeros)

theorem isDigit_of_mem_zeros (h : c ∈ zeros n) : c.isDigit = true := by
  rw [List.eq_of_mem_replicate h]
  rfl

theorem value_zeros_append (n : Nat) (ds : List Char) : Decimal.value (zeros n ++ ds) = Decimal.value ds := by
  rw [Decimal.value_append, zeros, Decimal.value_zeros, Nat.zero_mul, Nat.zero_add]

theorem value_append_zeros (ds : List Char) (n : Nat) : Decimal.value (ds ++ zeros n) = Decimal.value ds * 10 ^ n := by
  rw [Decimal.value_append, zeros, Decimal.value_zeros, Nat.add_zero, List.length_replicate]

/-- A point between digits, as many behind it as the exponent says. -/
theorem spells_pointed (whole fraction : List Char) (hne : whole ≠ []) (hw : ∀ c ∈ whole, c.isDigit = true)
    (hz : whole.head? = some '0' → whole = ['0']) (hne' : fraction ≠ []) (hf : ∀ c ∈ fraction, c.isDigit = true) :
    ({ whole, fraction } : Spelling).Spells (whole ++ '.' :: fraction)
      (Decimal.value (whole ++ fraction) * 10 ^ (-fraction.length : Int)) where
  strict := ⟨hne, hw, hz, hf, by simp, by simp⟩
  real h := hne' h.1
  chars := by simp [Spelling.chars, Spelling.powerChars, hne']
  value := by simp [Spelling.numeral, Spelling.powerValue, Numeral.toRat]

variable {ds : List Char}

theorem spells_before (h : Significant ds) (k : Nat) :
    ∃ p : Spelling, p.Spells ('0' :: '.' :: (zeros k ++ ds)) (Decimal.value ds * 10 ^ (-(k : Int) - ds.length)) := by
  have hdigits : ∀ c ∈ zeros k ++ ds, c.isDigit = true := by
    intro c hc
    exact (List.mem_append.mp hc).elim isDigit_of_mem_zeros (h.digits c)
  have hp := spells_pointed ['0'] (zeros k ++ ds) (by simp) (by simp) (by simp) (by simp [h.ne]) hdigits
  have hvalue : Decimal.value (['0'] ++ (zeros k ++ ds)) = Decimal.value ds := value_zeros_append (k + 1) ds
  rw [hvalue, List.length_append, zeros, List.length_replicate] at hp
  have hexponent : -((k + ds.length : Nat) : Int) = -(k : Int) - ds.length := by omega
  exact ⟨_, hexponent ▸ hp⟩

theorem spells_behind (h : Significant ds) (hk : ds.length ≤ k) :
    ∃ p : Spelling, p.Spells (ds ++ zeros (k - ds.length) ++ ['.', '0'])
      (Decimal.value ds * 10 ^ ((k : Int) - ds.length)) := by
  have hdigits : ∀ c ∈ ds ++ zeros (k - ds.length), c.isDigit = true := by
    intro c hc
    exact (List.mem_append.mp hc).elim (h.digits c) isDigit_of_mem_zeros
  have hhead : (ds ++ zeros (k - ds.length)).head? ≠ some '0' := by
    rw [List.head?_append_of_ne_nil _ h.ne]
    exact h.head
  have hp := spells_pointed (ds ++ zeros (k - ds.length)) ['0'] (by simp [h.ne]) hdigits (fun h => absurd h hhead)
    (by simp) (by simp)
  have hvalue : Decimal.value (ds ++ zeros (k - ds.length) ++ ['0']) = Decimal.value ds * 10 ^ (k - ds.length + 1) := by
    rw [List.append_assoc, ← value_append_zeros, zeros, zeros, ← List.replicate_succ']
  have hpower : ((10 ^ (k - ds.length + 1) : Nat) : ℚ) * 10 ^ (-['0'].length : Int) = 10 ^ ((k : Int) - ds.length) := by
    rw [Nat.cast_pow, Nat.cast_ofNat, ← zpow_natCast, ← zpow_add₀ (by norm_num)]
    congr 1
    simp
    omega
  rw [hvalue, Nat.cast_mul, mul_assoc, hpower] at hp
  exact ⟨_, hp⟩

theorem spells_among (h : Significant ds) (hpos : 0 < k) (hk : k < ds.length) :
    ∃ p : Spelling, p.Spells (ds.take k ++ '.' :: ds.drop k) (Decimal.value ds * 10 ^ ((k : Int) - ds.length)) := by
  have hhead : (ds.take k).head? ≠ some '0' := by
    rw [List.head?_take, if_neg hpos.ne']
    exact h.head
  have hp := spells_pointed (ds.take k) (ds.drop k) (by simp [h.ne, hpos.ne'])
    (fun c hc => h.digits c (List.mem_of_mem_take hc)) (fun h => absurd h hhead) (by simpa using hk)
    (fun c hc => h.digits c (List.mem_of_mem_drop hc))
  have hexponent : -((ds.length - k : Nat) : Int) = (k : Int) - ds.length := by omega
  rw [List.take_append_drop, List.length_drop, hexponent] at hp
  exact ⟨_, hp⟩

/-- Digits with a point among them stand for the number of the digits, moved to the point. -/
theorem spells_layPlain (h : Significant ds) (point : Int) :
    ∃ p : Spelling, p.Spells (number.layPlain ds point) (Decimal.value ds * 10 ^ (point - ds.length)) := by
  unfold NumberStyle.layPlain
  split
  · obtain ⟨k, rfl⟩ : ∃ k : Nat, point = -(k : Int) := ⟨(-point).toNat, by omega⟩
    rw [neg_neg, Int.toNat_natCast]
    exact spells_before h k
  · obtain ⟨k, rfl⟩ : ∃ k : Nat, point = (k : Int) := ⟨point.toNat, by omega⟩
    rw [Int.toNat_natCast]
    split
    · next hk => exact spells_behind h hk
    · next hpos hk => exact spells_among h (by omega) (by omega)

/-- With a power of ten the point stands behind the first digit. -/
theorem spells_layPower (h : Significant ds) (lead : Int) :
    ∃ p : Spelling, p.Spells (number.layPower ds lead) (Decimal.value ds * 10 ^ (lead + 1 - ds.length)) := by
  obtain ⟨d, r, rfl⟩ := List.exists_cons_of_ne_nil h.ne
  have hpower : Spelling.powerValue (some (decide (lead < 0), Decimal.natChars lead.natAbs)) = some lead := by
    simp only [Spelling.powerValue, Option.map_some, Decimal.value_natChars, decide_eq_true_eq, Option.some.injEq]
    split <;> omega
  have hwidth : number.powerWidth - (Decimal.natChars lead.natAbs).length = 0 :=
    Nat.sub_eq_zero_of_le (List.length_pos_of_ne_nil (Decimal.natChars_ne_nil _))
  have hzero : number.powerZero = false := rfl
  refine ⟨{ whole := [d], fraction := r, power := some (lead < 0, Decimal.natChars lead.natAbs) }, ?_, ?_, ?_, ?_⟩
  · exact
      { whole_ne := by simp
        whole_digits := by simpa using h.digits d List.mem_cons_self
        zero := by simp
        fraction_digits := fun c hc => h.digits c (List.mem_cons_of_mem _ hc)
        power_ne := by simpa using Decimal.natChars_ne_nil _
        power_digits := by simpa using fun c => Decimal.isDigit_of_mem_natChars }
  · simp
  · unfold NumberStyle.layPower
    dsimp only
    rw [hwidth, hzero]
    cases r with
    | nil => simp [Spelling.chars, Spelling.powerChars, zeros]
    | cons c r => simp [Spelling.chars, Spelling.powerChars, zeros]
  · simp only [Spelling.numeral, hpower, Option.getD_some, Numeral.toRat, List.singleton_append, List.length_cons]
    congr 2
    push_cast
    ring

/-- What a positive numeral is spelled as stands for its number. -/
theorem spells_layNumeral {n : Numeral} (h : 0 < n.digits) :
    ∃ p : Spelling, p.Spells (number.layNumeral n) n.toRat := by
  have hds := significant_natChars h
  unfold NumberStyle.layNumeral
  dsimp only
  split
  · have hp := spells_layPlain hds ((Decimal.natChars n.digits).length + n.exponent)
    rwa [Decimal.value_natChars, add_sub_cancel_left] at hp
  · have hp := spells_layPower hds ((Decimal.natChars n.digits).length + n.exponent - 1)
    rwa [Decimal.value_natChars, sub_add_cancel, add_sub_cancel_left] at hp

theorem nearest_of_toNat {bits : UInt64} (h : bits.toNat = Binary.signed Binary.double negative (n.round Binary.double)) :
    nearest negative n = bits := by
  rw [nearest, ← h, UInt64.ofNat_toNat]

/-- A finite double is read back as its bits from what it is spelled as. -/
theorem double_spelling {bits : UInt64} (h : Binary.read Binary.double bits.toNat = .finite negative m e) :
    ∃ p : Spelling, p.Strict ∧ (number.spell bits).toList = minus negative ++ p.chars ∧
      numberOf negative p.whole p.fraction (Spelling.powerValue p.power) = .real bits := by
  obtain ⟨hbits, ⟨rfl, rfl⟩ | hc⟩ := Binary.read_finite_inv bits.toNat_lt h
  · refine ⟨{ whole := ['0'], fraction := ['0'] }, ⟨by simp, by simp, by simp, by simp, by simp, by simp⟩, ?_, ?_⟩
    · rw [NumberStyle.spell, h]
      cases negative <;> rfl
    · have : nearest negative ⟨Decimal.value (['0'] ++ ['0']), 0 - 1⟩ = bits := by
        apply nearest_of_toNat
        rw [hbits]
        rfl
      simpa [numberOf, Spelling.powerValue] using this
  · have hnear := Shortest.near_ofFinite hc .even
    obtain ⟨p, hp⟩ := spells_layNumeral (Numeral.toRat_pos_iff.mp (hnear.pos hc.pos))
    refine ⟨p, hp.strict, ?_, ?_⟩
    · have hpos := hc.pos.ne'
      rw [NumberStyle.spell, h]
      simp only [hpos, if_false, String.toList_ofList]
      rw [← hp.chars]
      rfl
    · have hround := Numeral.round_of_near (n := p.numeral) hc (hp.value ▸ hnear)
      have hreal : ¬(p.fraction = [] ∧ Spelling.powerValue p.power = none) := by
        simpa [Spelling.powerValue] using hp.real
      rw [numberOf, if_neg hreal]
      exact congrArg Tree.real (nearest_of_toNat (n := p.numeral) (by rw [hround, hbits]))

theorem not_mem_of_digits {ds : List Char} (hd : ∀ c ∈ ds, c.isDigit = true) : '\n' ∉ ds :=
  fun h => absurd (hd _ h) (by decide)

/-- A number stands on one line. -/
theorem Spelling.Strict.on_line {p : Spelling} (hp : p.Strict) (negative : Bool) : '\n' ∉ minus negative ++ p.chars := by
  have hminus : '\n' ∉ minus negative := by cases negative <;> decide
  have hfraction : '\n' ∉ if p.fraction = [] then [] else '.' :: p.fraction := by
    split
    · simp
    · simpa using not_mem_of_digits hp.fraction_digits
  have hpower : '\n' ∉ Spelling.powerChars p.power := by
    cases hq : p.power with
    | none => simp [powerChars]
    | some q =>
      obtain ⟨negative, digits⟩ := q
      have hdigits := not_mem_of_digits (hp.power_digits _ hq)
      cases negative <;> simpa [powerChars] using hdigits
  simp only [chars, List.mem_append, not_or]
  exact ⟨hminus, not_mem_of_digits hp.whole_digits, hfraction, hpower⟩

end WireQuery.Json
