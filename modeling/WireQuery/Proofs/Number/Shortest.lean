import Mathlib
import WireQuery.Number.Shortest
import WireQuery.Proofs.Number.Numeral

/-!
The shortest digits of a double read back as it. A decimal grid that has no point near to a double has steps as wide as the
interval around it, and the steps of seventeen digits are smaller than that.
-/

namespace WireQuery.Shortest

open Binary (Canonical Near under double)

theorem twoPower_pos (e : Int) : 0 < (twoPower e).1 ∧ 0 < (twoPower e).2 := by
  simp only [twoPower, Nat.shiftLeft_eq]
  split
  · exact ⟨by positivity, Nat.one_pos⟩
  · exact ⟨Nat.one_pos, by positivity⟩

theorem twoPower_quotient (e : Int) : ((twoPower e).1 : ℚ) / (twoPower e).2 = 2 ^ e := by
  unfold twoPower
  split
  · next h =>
    obtain ⟨n, rfl⟩ := Int.eq_ofNat_of_zero_le h
    simp [Nat.shiftLeft_eq]
  · next h =>
    obtain ⟨n, hn⟩ := Int.eq_ofNat_of_zero_le (show 0 ≤ -e by omega)
    rw [hn, show e = -(n : Int) by omega]
    simp [Nat.shiftLeft_eq]

theorem tenPower_pos (e : Int) : 0 < (tenPower e).1 ∧ 0 < (tenPower e).2 := by
  unfold tenPower
  split
  · exact ⟨Nat.pow_pos (by decide), Nat.one_pos⟩
  · exact ⟨Nat.one_pos, Nat.pow_pos (by decide)⟩

theorem tenPower_quotient (e : Int) : ((tenPower e).1 : ℚ) / (tenPower e).2 = 10 ^ e := by
  unfold tenPower
  split
  · next h =>
    obtain ⟨n, rfl⟩ := Int.eq_ofNat_of_zero_le h
    simp
  · next h =>
    obtain ⟨n, hn⟩ := Int.eq_ofNat_of_zero_le (show 0 ≤ -e by omega)
    rw [hn, show e = -(n : Int) by omega]
    simp

theorem tenPower_le_iff {num den : Nat} (hd : 0 < den) (g : Int) :
    (tenPower g).1 * den ≤ num * (tenPower g).2 ↔ (10 : ℚ) ^ g ≤ (num : ℚ) / den := by
  have hd' : (0 : ℚ) < den := by exact_mod_cast hd
  have hp : (0 : ℚ) < (tenPower g).2 := by exact_mod_cast (tenPower_pos g).2
  rw [← tenPower_quotient, div_le_div_iff₀ hp hd']
  exact_mod_cast Iff.rfl

/-- Powers of two and ten, the exponents in the ratio of the estimate. -/
theorem powers_le : (10 : ℚ) ^ (1233 : Int) ≤ 2 ^ (4096 : Int) ∧ (2 : ℚ) ^ (4096 : Int) ≤ 10 ^ (1234 : Int) := by
  constructor
  · exact_mod_cast (by decide +kernel : 10 ^ 1233 ≤ 2 ^ 4096)
  · exact_mod_cast (by decide +kernel : 2 ^ 4096 ≤ 10 ^ 1234)

/-- The estimate of the leading digit is at most one too large. -/
theorem power_estimate_le {l : Int} (hl : -4096 ≤ l) : (10 : ℚ) ^ (l * 1233 / 4096 - 1) ≤ 2 ^ l := by
  have hone : (1 : ℚ) ≤ 10 := by norm_num
  have htwo : (0 : ℚ) < 2 ^ (4096 : Int) := by positivity
  have hten : (0 : ℚ) < 10 ^ (1233 : Int) := by positivity
  have hpow : (10 : ℚ) ^ (4096 * (l * 1233 / 4096 - 1)) ≤ 2 ^ (4096 * l) := by
    obtain ⟨n, rfl | rfl⟩ := l.eq_nat_or_neg
    · calc (10 : ℚ) ^ (4096 * ((n : Int) * 1233 / 4096 - 1)) ≤ 10 ^ (1233 * (n : Int)) :=
            zpow_le_zpow_right₀ hone (by omega)
        _ = (10 ^ (1233 : Int)) ^ n := by rw [zpow_mul, zpow_natCast]
        _ ≤ (2 ^ (4096 : Int)) ^ n := pow_le_pow_left₀ hten.le powers_le.1 n
        _ = 2 ^ (4096 * (n : Int)) := by rw [zpow_mul, zpow_natCast]
    · calc (10 : ℚ) ^ (4096 * (-(n : Int) * 1233 / 4096 - 1)) ≤ 10 ^ (1234 * -(n : Int)) :=
            zpow_le_zpow_right₀ hone (by omega)
        _ = ((10 ^ (1234 : Int)) ^ n)⁻¹ := by rw [zpow_mul, zpow_neg, zpow_natCast]
        _ ≤ ((2 ^ (4096 : Int)) ^ n)⁻¹ :=
            inv_anti₀ (pow_pos htwo n) (pow_le_pow_left₀ htwo.le powers_le.2 n)
        _ = 2 ^ (4096 * -(n : Int)) := by rw [zpow_mul, zpow_neg, zpow_natCast]
  have hroot : ((10 : ℚ) ^ (l * 1233 / 4096 - 1)) ^ 4096 ≤ ((2 : ℚ) ^ l) ^ 4096 := by
    rw [← zpow_natCast, ← zpow_natCast, ← zpow_mul, ← zpow_mul, mul_comm _ ((4096 : Nat) : Int),
      mul_comm l ((4096 : Nat) : Int)]
    exact hpow
  exact le_of_pow_le_pow_left₀ (by decide) (by positivity) hroot

theorem power_leading_le {num den : Nat} (hn : 0 < num) (hd : 0 < den) (hl : -4096 ≤ Int.log 2 ((num : ℚ) / den)) :
    (10 : ℚ) ^ leading num den ≤ (num : ℚ) / den := by
  have hpos : (0 : ℚ) < (num : ℚ) / den := by positivity
  have hestimate := power_estimate_le hl
  unfold leading
  rw [Binary.log2Quotient_eq_log hn hd]
  dsimp only
  split
  · next h => exact (tenPower_le_iff hd _).mp h
  · split
    · exact hestimate.trans (by exact_mod_cast Int.zpow_log_le_self one_lt_two hpos)
    · next h => exact (tenPower_le_iff hd _).mp (Nat.le_of_not_lt h)

/-- A number that rounds to the number in the middle. -/
structure Interval.Has (i : Interval) (x : ℚ) : Prop where
  low : (i.low : ℚ) / i.den ≤ x
  high : x ≤ (i.high : ℚ) / i.den
  strict : i.closed = false → (i.low : ℚ) / i.den < x ∧ x < (i.high : ℚ) / i.den

theorem Interval.holds_iff {i : Interval} (hi : 0 < i.den) {num den : Nat} (hd : 0 < den) (c : Nat) :
    i.holds c num den = true ↔ i.Has (c * ((num : ℚ) / den)) := by
  have hi' : (0 : ℚ) < i.den := by exact_mod_cast hi
  have hd' : (0 : ℚ) < den := by exact_mod_cast hd
  have hlow : (i.low : ℚ) / i.den ≤ c * (num / den) ↔ i.low * den ≤ c * num * i.den := by
    rw [mul_div_assoc', div_le_div_iff₀ hi' hd']
    exact_mod_cast Iff.rfl
  have hhigh : (c : ℚ) * (num / den) ≤ i.high / i.den ↔ c * num * i.den ≤ i.high * den := by
    rw [mul_div_assoc', div_le_div_iff₀ hd' hi']
    exact_mod_cast Iff.rfl
  have hlow' : (i.low : ℚ) / i.den < c * (num / den) ↔ i.low * den < c * num * i.den := by
    rw [mul_div_assoc', div_lt_div_iff₀ hi' hd']
    exact_mod_cast Iff.rfl
  have hhigh' : (c : ℚ) * (num / den) < i.high / i.den ↔ c * num * i.den < i.high * den := by
    rw [mul_div_assoc', div_lt_div_iff₀ hd' hi']
    exact_mod_cast Iff.rfl
  unfold holds
  constructor
  · intro h
    split at h
    · next hc =>
      simp only [Bool.and_eq_true, decide_eq_true_eq] at h
      exact ⟨hlow.mpr h.1, hhigh.mpr h.2, by simp [hc]⟩
    · simp only [Bool.and_eq_true, decide_eq_true_eq] at h
      exact ⟨(hlow'.mpr h.1).le, (hhigh'.mpr h.2).le, fun _ => ⟨hlow'.mpr h.1, hhigh'.mpr h.2⟩⟩
  · intro h
    split
    · simpa using ⟨hlow.mp h.low, hhigh.mp h.high⟩
    · next hc =>
      obtain ⟨hl, hh⟩ := h.strict (by simpa using hc)
      simpa using ⟨hlow'.mp hl, hhigh'.mp hh⟩

theorem Interval.has_of_between {i : Interval} (hlow : (i.low : ℚ) / i.den < x) (hhigh : x < (i.high : ℚ) / i.den) :
    i.Has x :=
  ⟨hlow.le, hhigh.le, fun _ => ⟨hlow, hhigh⟩⟩

/-- The number in the middle lies inside. -/
structure Interval.Proper (i : Interval) : Prop where
  den_pos : 0 < i.den
  low : (i.low : ℚ) / i.den < i.mid / i.den
  high : (i.mid : ℚ) / i.den < i.high / i.den

/-- The steps of a grid up to the number in the middle. -/
def Interval.below (i : Interval) (g : Int) : Nat := i.mid * (tenPower g).2 / (i.den * (tenPower g).1)

theorem Interval.below_bounds {i : Interval} (hi : i.Proper) (g : Int) :
    (i.below g : ℚ) * 10 ^ g ≤ i.mid / i.den ∧ (i.mid : ℚ) / i.den < (i.below g + 1 : Nat) * 10 ^ g ∧
      (i.mid * (tenPower g).2 % (i.den * (tenPower g).1) = 0 → (i.below g : ℚ) * 10 ^ g = i.mid / i.den) := by
  obtain ⟨hnum, hden⟩ := tenPower_pos g
  have hi' : (0 : ℚ) < i.den := by exact_mod_cast hi.den_pos
  have hden' : (0 : ℚ) < (tenPower g).2 := by exact_mod_cast hden
  have hbottom : 0 < i.den * (tenPower g).1 := Nat.mul_pos hi.den_pos hnum
  have hdiv := Nat.div_add_mod (i.mid * (tenPower g).2) (i.den * (tenPower g).1)
  have hlt := Nat.lt_div_mul_add (a := i.mid * (tenPower g).2) hbottom
  have hle := Nat.div_mul_le_self (i.mid * (tenPower g).2) (i.den * (tenPower g).1)
  rw [← below] at hdiv hlt hle
  rw [← tenPower_quotient, mul_div_assoc', mul_div_assoc', div_le_div_iff₀ hden' hi', div_lt_div_iff₀ hi' hden',
    div_eq_div_iff hden'.ne' hi'.ne']
  refine ⟨?_, ?_, fun h0 => ?_⟩
  · exact_mod_cast (by linarith : i.below g * (tenPower g).1 * i.den ≤ i.mid * (tenPower g).2)
  · exact_mod_cast (by linarith : i.mid * (tenPower g).2 < (i.below g + 1) * (tenPower g).1 * i.den)
  · exact_mod_cast (by linarith : i.below g * (tenPower g).1 * i.den = i.mid * (tenPower g).2)

/-- A grid gives a point that rounds to the number in the middle, or neither point beside that number does. -/
theorem Interval.onGrid?_cases {i : Interval} (hi : i.Proper) (tie : Tie) (g : Int) :
    (∃ c, i.onGrid? tie g = some c ∧ i.Has (c * 10 ^ g)) ∨
      (i.onGrid? tie g = none ∧ ¬i.Has (i.below g * 10 ^ g) ∧ ¬i.Has ((i.below g + 1 : Nat) * 10 ^ g)) := by
  obtain ⟨-, -, hexact⟩ := below_bounds hi g
  have hholds (c : Nat) : i.holds c (tenPower g).1 (tenPower g).2 = true ↔ i.Has (c * 10 ^ g) := by
    rw [holds_iff hi.den_pos (tenPower_pos g).2, tenPower_quotient]
  unfold onGrid?
  dsimp only
  rw [← below]
  split
  · next h0 => exact .inl ⟨_, rfl, hexact h0 ▸ has_of_between hi.low hi.high⟩
  · split
    · next hbelow habove =>
      rw [Bool.eq_false_iff, ne_eq, hholds] at hbelow habove
      exact .inr ⟨rfl, hbelow, habove⟩
    · next hbelow _ => exact .inl ⟨_, rfl, (hholds _).mp hbelow⟩
    · next _ habove => exact .inl ⟨_, rfl, (hholds _).mp habove⟩
    · next hbelow habove =>
      have hbelow := (hholds _).mp hbelow
      have habove := (hholds _).mp habove
      split
      · exact .inl ⟨_, rfl, hbelow⟩
      · split
        · exact .inl ⟨_, rfl, habove⟩
        · split
          · exact .inl ⟨_, rfl, hbelow⟩
          · exact .inl ⟨_, rfl, habove⟩

theorem Interval.has_of_onGrid? {i : Interval} (hi : i.Proper) (h : i.onGrid? tie g = some c) : i.Has (c * 10 ^ g) := by
  obtain ⟨d, hd, hhas⟩ | ⟨hnone, -, -⟩ := onGrid?_cases hi tie g
  · rw [h] at hd
    exact Option.some.inj hd ▸ hhas
  · rw [h] at hnone
    contradiction

/-- A grid without a point in an interval has steps as wide as it. -/
theorem Interval.width_le_of_onGrid? {i : Interval} (hi : i.Proper) (h : i.onGrid? tie g = none) :
    (i.high : ℚ) / i.den - i.low / i.den ≤ 10 ^ g := by
  obtain ⟨c, hc, -⟩ | ⟨-, hbelow, habove⟩ := onGrid?_cases hi tie g
  · rw [h] at hc
    contradiction
  · obtain ⟨hle, hlt, -⟩ := below_bounds hi g
    have hlow : (i.below g : ℚ) * 10 ^ g ≤ i.low / i.den := by
      by_contra hgt
      exact hbelow (has_of_between (not_le.mp hgt) (hle.trans_lt hi.high))
    have hhigh : (i.high : ℚ) / i.den ≤ (i.below g + 1 : Nat) * 10 ^ g := by
      by_contra hgt
      exact habove (has_of_between (hi.low.trans hlt) (not_le.mp hgt))
    push_cast at hhigh
    linarith

variable {m : Nat} {e : Int}

theorem quarters (a : ℚ) (e : Int) : a * (twoPower (e - 2)).1 / (twoPower (e - 2)).2 = a / 4 * 2 ^ e := by
  rw [mul_div_assoc, twoPower_quotient, zpow_sub₀ two_ne_zero]
  norm_num
  ring

theorem low_interval (hm : 0 < m) (e : Int) :
    ((interval double m e).low : ℚ) / (interval double m e).den = (m - under m e) * 2 ^ e := by
  have himplicit : double.implicitBit = 2 ^ 52 := rfl
  have hscale : (double.scale : Int) = 1074 := rfl
  have hle : (if m = 2 ^ 52 ∧ -1074 < e then 1 else 2) ≤ 4 * m := by
    split <;> omega
  simp only [interval, himplicit, hscale]
  rw [Nat.cast_mul, quarters, Nat.cast_sub hle, under]
  split
  · push_cast
    ring
  · push_cast
    ring

theorem mid_interval (m : Nat) (e : Int) :
    ((interval double m e).mid : ℚ) / (interval double m e).den = m * 2 ^ e := by
  simp only [interval]
  push_cast
  rw [quarters]
  ring

theorem high_interval (m : Nat) (e : Int) :
    ((interval double m e).high : ℚ) / (interval double m e).den = (m + 1 / 2) * 2 ^ e := by
  simp only [interval]
  push_cast
  rw [quarters]
  ring

theorem under_pos (m : Nat) (e : Int) : 0 < under m e := by
  unfold under
  split <;> norm_num

theorem proper_interval (hm : 0 < m) (e : Int) : (interval double m e).Proper where
  den_pos := (twoPower_pos (e - 2)).2
  low := by
    have := under_pos m e
    rw [low_interval hm, mid_interval]
    gcongr
    linarith
  high := by
    rw [mid_interval, high_interval]
    gcongr
    linarith

theorem near_of_has (hm : 0 < m) (h : (interval double m e).Has x) : Near m e x := by
  obtain ⟨hlow, hhigh, hstrict⟩ := h
  rw [low_interval hm] at hlow hstrict
  rw [high_interval] at hhigh hstrict
  exact ⟨hlow, hhigh, fun hodd => hstrict (by simp [interval, hodd])⟩

/-- Steps sixteen places behind the leading digit are smaller than the interval. -/
theorem step_lt_width {k : Int} (hc : Canonical m e) (hk : (10 : ℚ) ^ k ≤ m * 2 ^ e) :
    (10 : ℚ) ^ (k - 16) < (m + 1 / 2) * 2 ^ e - (m - under m e) * 2 ^ e := by
  have hp : (0 : ℚ) < 2 ^ e := by positivity
  have hstep : (10 : ℚ) ^ (k - 16) ≤ m / 10 ^ 16 * 2 ^ e := by
    rw [zpow_sub₀ (by norm_num), div_mul_eq_mul_div]
    exact div_le_div_of_nonneg_right hk (by positivity)
  have hm : (m : ℚ) / 10 ^ 16 < 1 / 2 + under m e := by
    unfold under
    split
    · next h =>
      rw [h.1]
      norm_num
    · have : (m : ℚ) < 2 ^ 53 := by exact_mod_cast hc.lt
      rw [div_lt_iff₀ (by norm_num)]
      linarith
  calc (10 : ℚ) ^ (k - 16) ≤ m / 10 ^ 16 * 2 ^ e := hstep
    _ < (1 / 2 + under m e) * 2 ^ e := by gcongr
    _ = (m + 1 / 2) * 2 ^ e - (m - under m e) * 2 ^ e := by ring

theorem power_leading_interval (hc : Canonical m e) :
    (10 : ℚ) ^ leading (interval double m e).mid (interval double m e).den ≤ m * 2 ^ e := by
  have hm : (1 : ℚ) ≤ m := by exact_mod_cast hc.pos
  have hleast : (2 : ℚ) ^ (-4096 : Int) ≤ m * 2 ^ e := by
    calc (2 : ℚ) ^ (-4096 : Int) ≤ 2 ^ e := zpow_le_zpow_right₀ one_le_two (by linarith [hc.least])
      _ ≤ m * 2 ^ e := le_mul_of_one_le_left (by positivity) hm
  have hden := (proper_interval hc.pos e).den_pos
  have hmid : 0 < (interval double m e).mid := by
    have hnum := (twoPower_pos (e - 2)).1
    have := hc.pos
    simp only [interval]
    positivity
  rw [← mid_interval m e] at hleast ⊢
  exact power_leading_le hmid hden ((Binary.le_log_iff (by positivity)).mpr hleast)

theorem toRat_stripZerosIn (k digits : Nat) (e : Int) : (stripZerosIn k digits e).toRat = digits * 10 ^ e := by
  induction k generalizing digits e with
  | zero => rfl
  | succ k ih =>
    rw [stripZerosIn]
    split
    · next h =>
      have hdigits : (digits : ℚ) = (digits / 10 : Nat) * 10 := by
        exact_mod_cast (by omega : digits = digits / 10 * 10)
      rw [ih, hdigits, zpow_add₀ (by norm_num), zpow_one]
      ring
    · rfl

theorem toRat_stripZeros (n : Numeral) : (stripZeros n).toRat = n.toRat := by
  unfold stripZeros
  split
  · next h => simp [Numeral.toRat, h]
  · exact toRat_stripZerosIn _ _ _

/-- The shortest digits of a double stand for a number near to it. -/
theorem near_ofFinite (hc : Canonical m e) (tie : Tie) : Near m e (ofFinite double tie m e).toRat := by
  have hproper := proper_interval hc.pos e
  have hk := power_leading_interval hc
  unfold ofFinite
  rw [toRat_stripZeros]
  generalize leading (interval double m e).mid (interval double m e).den = k at hk
  generalize hfound : (List.range 17).findSome? (fun (n : Nat) =>
    ((interval double m e).onGrid? tie (k - n)).map (fun c => (⟨c, k - n⟩ : Numeral))) = found
  cases found with
  | some n =>
    obtain ⟨j, -, hj⟩ := List.exists_of_findSome?_eq_some hfound
    obtain ⟨c, hc', rfl⟩ := Option.map_eq_some_iff.mp hj
    exact near_of_has hc.pos (Interval.has_of_onGrid? hproper hc')
  | none =>
    have hnone := List.findSome?_eq_none_iff.mp hfound 16 (by decide)
    have hwidth := Interval.width_le_of_onGrid? hproper (Option.map_eq_none_iff.mp hnone)
    rw [low_interval hc.pos, high_interval] at hwidth
    exact absurd (step_lt_width hc hk) (not_lt.mpr (by exact_mod_cast hwidth))

end WireQuery.Shortest
